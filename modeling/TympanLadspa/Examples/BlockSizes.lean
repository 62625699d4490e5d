import TympanLadspa.Entry.Blocks
import TympanLadspa.Examples.Gain
import TympanLadspa.Examples.Reset

/-!
# The sizes of blocks do not matter to the examples

Each of the three plugins reads its controls, goes over its frames one by one and keeps what one
frame leaves for the next, so that what it makes of two buffers is the same for all the ways of
cutting them into blocks.
-/

open Entry (Framewise)
open Port (AbsSample Memory Ports Prog Sample Slice)

-- ════════════════════════════════════════════════════════════════════════
-- The gain
-- ════════════════════════════════════════════════════════════════════════

namespace Gain

variable {α : Type} [Mul α]

/-- One sample. -/
def frame (gain : α) (i : ℕ) (_ : Unit) : Prog α Unit :=
  .load (.readInput 0 i) fun x => .store (.writeOutput 1 i (x * gain)) (.done ())

theorem exec_process (gain : α) (ports : Ports α) (n i : ℕ) (m : Memory α) :
    (process gain n i).exec ports m = (Prog.loop (frame gain) n i ()).exec ports m := by
  induction n generalizing i m with
  | zero => rfl
  | succ n ih =>
    rw [process, Prog.loop, frame, Prog.bind_load, Prog.load, Prog.exec_readInput,
      Prog.exec_readInput]
    congr 1
    funext ptr
    change (Prog.op _ _).exec ports m = (Prog.op _ _).exec ports m
    rw [Prog.exec, Prog.exec]
    cases ports.resolve (.writeOutput 1 i (m ptr * gain)) with
    | error panic => rfl
    | ok effect => exact ih _ _

variable [Zero α] [OfNat α 4]

theorem inOut : (plugin : Entry.Plugin α Unit).InOut where
  input := rfl
  output := rfl
  control := by
    intro port d hd
    match port with
    | 0 =>
      cases hd
      rfl
    | port + 1 => cases hd

def framewise : Framewise (plugin : Entry.Plugin α Unit) id α Unit where
  controls ports m := ports.controlValue m 2
  enter := id
  body gain _ := frame gain
  leave _ _ := id
  cycle_eq state ports m := by
    change (Prog.op _ _).exec ports m = _
    rw [Prog.exec_control]
    congr 1
    funext gain
    apply Prog.exec_inOut
    intro input output hin hout
    change (process gain (min input.len output.len) 0).exec ports m = _
    rw [hin, hout, Nat.min_self, exec_process]
    exact (congrFun Except.map_id _).symm
  controls_congr hport hm := Ports.controlValue_congr (hport 2) (hm 2)
  before _ _ i _ := .load (Nat.lt_succ_self i) fun _ => .store (Nat.lt_succ_self i) trivial
  shift _ _ _ _ _ := Prog.shift_load _
  enter_leave _ _ _ := rfl
  body_leave _ _ _ := rfl
  view_leave _ _ _ _ := rfl

end Gain

-- ════════════════════════════════════════════════════════════════════════
-- The gate
-- ════════════════════════════════════════════════════════════════════════

namespace NoiseGate

variable {α : Type} [AbsSample α]

/-- One sample. -/
def frame (openThreshold closeThreshold : α) (i : ℕ) (state : Bool) : Prog α Bool :=
  applyGate 0 1 openThreshold closeThreshold 1 i state

theorem applyGate_eq_loop (openThreshold closeThreshold : α) (n i : ℕ) (state : Bool) :
    applyGate 0 1 openThreshold closeThreshold n i state =
      Prog.loop (frame openThreshold closeThreshold) n i state := by
  induction n generalizing i state with
  | zero => rfl
  | succ n ih =>
    rw [Prog.loop, frame, applyGate, applyGate, Prog.bind_load]
    congr 1
    funext x
    by_cases hopen : latch openThreshold closeThreshold state x = true
    · rw [if_pos hopen, if_pos hopen, Prog.bind_load, ih]
      rfl
    · rw [if_neg hopen, if_neg hopen, ih]
      rfl

theorem frame_before (openThreshold closeThreshold : α) (i : ℕ) (state : Bool) :
    (frame openThreshold closeThreshold i state).Before (i + 1) := by
  have hi := Nat.lt_succ_self i
  refine .load hi fun x => ?_
  by_cases hopen : latch openThreshold closeThreshold state x = true
  · rw [if_pos hopen]
    exact .load hi fun y => .store hi trivial
  · rw [if_neg hopen]
    exact .store hi trivial

theorem frame_shift (openThreshold closeThreshold : α) (k i : ℕ) (state : Bool) :
    (frame openThreshold closeThreshold i state).shift k =
      frame openThreshold closeThreshold (i + k) state := by
  rw [frame, applyGate, Prog.shift_load]
  apply congrArg (Prog.load _)
  funext x
  by_cases hopen : latch openThreshold closeThreshold state x = true
  · rw [if_pos hopen, if_pos hopen, Prog.shift_load]
    rfl
  · rw [if_neg hopen, if_neg hopen]
    rfl

theorem inOut : (plugin α).InOut where
  input := rfl
  output := rfl
  control := by
    intro port d hd
    match port with
    | 0 | 1 =>
      cases hd
      rfl
    | port + 2 => cases hd

def framewise : Framewise (plugin α) id (α × α) Bool where
  controls ports m := do
    let openThreshold ← ports.controlValue m 2
    let closeThreshold ← ports.controlValue m 3
    return (openThreshold, closeThreshold)
  enter gate := gate.isOpen
  body thresholds _ := frame thresholds.1 thresholds.2
  leave _ _ state := ⟨state⟩
  cycle_eq gate ports m := by
    change (Prog.op _ _).exec ports m = _
    rw [Prog.exec_control]
    cases ports.controlValue m 2 with
    | error panic => rfl
    | ok openThreshold =>
      change (Prog.op _ _).exec ports m = _
      rw [Prog.exec_control]
      cases ports.controlValue m 3 with
      | error panic => rfl
      | ok closeThreshold =>
        apply Prog.exec_inOut
        intro input output hin hout
        change ((applyGate 0 1 openThreshold closeThreshold (min input.len output.len) 0
          gate.isOpen).map _).exec ports m = _
        rw [hin, hout, Nat.min_self, applyGate_eq_loop, Prog.exec_map_eq]
  controls_congr hport hm := by
    rw [Ports.controlValue_congr (hport 2) (hm 2), Ports.controlValue_congr (hport 3) (hm 3)]
  before thresholds _ := frame_before _ _
  shift thresholds _ := frame_shift _ _
  enter_leave _ _ _ := rfl
  body_leave _ _ _ := rfl
  view_leave _ _ _ _ := rfl

end NoiseGate

-- ════════════════════════════════════════════════════════════════════════
-- The delay
-- ════════════════════════════════════════════════════════════════════════

namespace Delay

variable {α Λ : Type} [Sample α]

/-- One sample, on the buffer and the write index. -/
def frame (delaySamples : ℕ) (feedback mix : α) (i : ℕ) (line : List α × ℕ) :
    Prog α (List α × ℕ) :=
  if line.1.length = 0 then .done line
  else
    processSamples 0 1 line.1.length (min delaySamples (line.1.length - 1)) feedback mix 1 i
      line.1 line.2

theorem processSamples_eq_loop (delaySamples : ℕ) (feedback mix : α) {len : ℕ} (hlen : len ≠ 0)
    (n i : ℕ) {buffer : List α} (hbuffer : buffer.length = len) (writeIndex : ℕ) :
    processSamples 0 1 len (min delaySamples (len - 1)) feedback mix n i buffer writeIndex =
      Prog.loop (frame delaySamples feedback mix) n i (buffer, writeIndex) := by
  induction n generalizing i buffer writeIndex with
  | zero => rfl
  | succ n ih =>
    rw [Prog.loop, frame, if_neg (hbuffer ▸ hlen), hbuffer, processSamples, processSamples]
    cases buffer[(writeIndex + len - min delaySamples (len - 1)) % len]? with
    | none => rfl
    | some delayed =>
      change Prog.load _ _ = Prog.bind _ (Prog.load _ _)
      rw [Prog.bind_load]
      apply congrArg (Prog.load _)
      funext x
      rw [Prog.bind_store, Prog.bind_load]
      apply congrArg (Prog.store _)
      apply congrArg (Prog.load _)
      funext x
      by_cases hindex : writeIndex < buffer.length
      · rw [if_pos hindex, if_pos hindex, ih (i + 1) (by rw [List.length_set, hbuffer])]
        rfl
      · rw [if_neg hindex, if_neg hindex]
        rfl

theorem applyDelay_eq_loop (buffer : List α) (writeIndex n delaySamples : ℕ)
    (feedback mix : α) :
    applyDelay buffer writeIndex 0 1 n delaySamples feedback mix =
      Prog.loop (frame delaySamples feedback mix) n 0 (buffer, writeIndex) := by
  unfold applyDelay
  by_cases hempty : buffer.length = 0
  · rw [if_pos hempty]
    -- no frame does anything
    suffices h : ∀ i, Prog.loop (frame delaySamples feedback mix) n i (buffer, writeIndex) =
        .done (buffer, writeIndex) from (h 0).symm
    induction n with
    | zero => exact fun _ => rfl
    | succ n ih =>
      intro i
      rw [Prog.loop, frame, if_pos hempty]
      exact ih (i + 1)
  · rw [if_neg hempty]
    exact processSamples_eq_loop delaySamples feedback mix hempty n 0 rfl writeIndex

theorem frame_before (delaySamples : ℕ) (feedback mix : α) (i : ℕ) (line : List α × ℕ) :
    (frame delaySamples feedback mix i line).Before (i + 1) := by
  have hi := Nat.lt_succ_self i
  unfold frame
  by_cases hempty : line.1.length = 0
  · rw [if_pos hempty]
    trivial
  · rw [if_neg hempty, processSamples]
    cases line.1[(line.2 + line.1.length - min delaySamples (line.1.length - 1)) %
        line.1.length]? with
    | none => trivial
    | some delayed =>
      refine .load hi fun x => .store hi (.load hi fun x => ?_)
      by_cases hindex : line.2 < line.1.length
      · rw [if_pos hindex]
        trivial
      · rw [if_neg hindex]
        trivial

theorem frame_shift (delaySamples : ℕ) (feedback mix : α) (k i : ℕ) (line : List α × ℕ) :
    (frame delaySamples feedback mix i line).shift k =
      frame delaySamples feedback mix (i + k) line := by
  unfold frame
  by_cases hempty : line.1.length = 0
  · rw [if_pos hempty, if_pos hempty]
    rfl
  · rw [if_neg hempty, if_neg hempty, processSamples, processSamples]
    cases line.1[(line.2 + line.1.length - min delaySamples (line.1.length - 1)) %
        line.1.length]? with
    | none => rfl
    | some delayed =>
      change Prog.shift k (Prog.load _ _) = Prog.load _ _
      rw [Prog.shift_load]
      apply congrArg (Prog.load _)
      funext x
      rw [Prog.shift_store, Prog.shift_load]
      apply congrArg (Prog.store _)
      apply congrArg (Prog.load _)
      funext x
      by_cases hindex : line.2 < line.1.length
      · rw [if_pos hindex, if_pos hindex]
        rfl
      · rw [if_neg hindex, if_neg hindex]
        rfl

theorem inOut (sink : Sink Λ (DelayLogEvent α)) : (plugin sink).InOut where
  input := rfl
  output := rfl
  control := by
    intro port d hd
    match port with
    | 0 | 1 | 2 =>
      cases hd
      rfl
    | port + 3 => cases hd

/-- The three controls of a run, as they are. -/
def framewise (sink : Sink Λ (DelayLogEvent α)) :
    Framewise (plugin sink) forget (α × α × α) (List α × ℕ) where
  controls ports m := do
    let delayMs ← ports.controlValue m 2
    let feedbackRaw ← ports.controlValue m 3
    let mixRaw ← ports.controlValue m 4
    return (delayMs, feedbackRaw, mixRaw)
  enter delay := (delay.buffer, delay.writeIndex)
  body c delay :=
    frame (delaySamples c.1 delay.sampleRate) (Sample.clamp c.2.1 0 feedbackCap)
      (Sample.clamp c.2.2 0 1)
  leave c delay line :=
    { delay with
      buffer := line.1
      writeIndex := line.2
      logger := logFeedback sink delay.logger c.2.1 }
  cycle_eq delay ports m := by
    change (Prog.op _ _).exec ports m = _
    rw [Prog.exec_control]
    cases ports.controlValue m 2 with
    | error panic => rfl
    | ok delayMs =>
      change (Prog.op _ _).exec ports m = _
      rw [Prog.exec_control]
      cases ports.controlValue m 3 with
      | error panic => rfl
      | ok feedbackRaw =>
        change (Prog.op _ _).exec ports m = _
        rw [Prog.exec_control]
        cases ports.controlValue m 4 with
        | error panic => rfl
        | ok mixRaw =>
          apply Prog.exec_inOut
          intro input output hin hout
          change ((applyDelay delay.buffer delay.writeIndex 0 1 (min input.len output.len)
            (delaySamples delayMs delay.sampleRate) (Sample.clamp feedbackRaw 0 feedbackCap)
            (Sample.clamp mixRaw 0 1)).map _).exec ports m = _
          rw [hin, hout, Nat.min_self, applyDelay_eq_loop, Prog.exec_map_eq]
  controls_congr hport hm := by
    rw [Ports.controlValue_congr (hport 2) (hm 2), Ports.controlValue_congr (hport 3) (hm 3),
      Ports.controlValue_congr (hport 4) (hm 4)]
  before _ _ := frame_before _ _ _
  shift _ _ := frame_shift _ _ _
  enter_leave _ _ _ := rfl
  body_leave _ _ _ := rfl
  view_leave _ _ _ _ := rfl

end Delay

open Entry (Plugin World) in
/-- **Any block sizes.** Whatever a host cuts two buffers into, each of the three plugins leaves
the same memory, the same state and the same other instances, and panics for all of the ways or
for none. The buffers may be one; of the delay, only the log may have more or fewer events. -/
theorem any_block_sizes :
    (∀ (α : Type) [Zero α] [Mul α] [OfNat α 4],
      (Gain.plugin : Plugin α Unit).SizeBlind id) ∧
    (∀ (α : Type) [AbsSample α], (NoiseGate.plugin α).SizeBlind id) ∧
    ∀ (α Λ : Type) [Sample α] (sink : Sink Λ (DelayLogEvent α)),
      (Delay.plugin sink).SizeBlind Delay.forget :=
  ⟨fun _ => Gain.framewise.sizeBlind Gain.inOut,
    fun _ => NoiseGate.framewise.sizeBlind NoiseGate.inOut,
    fun _ _ _ sink => (Delay.framewise sink).sizeBlind (Delay.inOut sink)⟩

open Entry (World) in
/-- Four frames through a delay in place, as one and three and as two and two. -/
theorem four_frames_cut_twice : ∃ w : World (Delay.plugin Delay.acceptAll),
    Transition.run World.step (.start _ fun p => (p : ℚ))
      [.instantiate 1#64 8, .connectPort 8 2 64, .connectPort 8 3 65, .connectPort 8 4 66] =
        some w ∧
      (Transition.run World.step w (Entry.blocks 8 16 16 0 [1, 3])).map
          (World.outlook Delay.forget 8) =
        (Transition.run World.step w (Entry.blocks 8 16 16 0 [2, 2])).map
          (World.outlook Delay.forget 8) := by
  refine ⟨_, rfl, any_block_sizes.2.2 ℚ Unit Delay.acceptAll _ 8 _ 16 16 [1, 3] [2, 2] rfl
    (by simp) (by simp) rfl ?_⟩
  intro port ptr hport hptr
  have hbehind : 16 + 4 ≤ ptr := by
    match port, hport with
    | 2, _ | 3, _ | 4, _ =>
      cases hptr
      decide
    | port + 5, _ => cases hptr
  exact fun hmem => Nat.not_lt.mpr hbehind hmem.2
