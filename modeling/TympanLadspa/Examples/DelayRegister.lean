import TympanLadspa.Entry.Session
import TympanLadspa.Entry.Simulation
import TympanLadspa.Examples.DelayInPlace
import TympanLadspa.Examples.DelaySlices
import TympanLadspa.Foundations.ShiftRegister

/-!
# The delay as a shift register

What the delay is for, said without a write index: its last samples, the newest first. No host
can tell the one from the other, whatever calls it makes, so that where the line is written next
is never seen. In particular a delay that has heard silence only is as a new one.
-/

open Port (Memory Ports Prog Sample)

/-- The last samples that went into a delay, the newest first. -/
structure DelayRegister (α Λ : Type) where
  samples : List α
  sampleRate : BitVec 32
  logger : Λ

namespace DelayRegister

open Delay (delaySamples feedbackCap logFeedback stepsBack)
open ShiftRegister (shift)

variable {α Λ : Type} [Sample α]

/-- One sample. An offset of zero is the oldest one. -/
def frame (offset : ℕ) (feedback mix : α) (i : ℕ) (samples : List α) : Prog α (List α) :=
  match samples[stepsBack samples.length offset - 1]? with
  | none => .done samples
  | some delayed =>
    .load (.readInput 0 i) fun x =>
    .store (.writeOutput 1 i ((1 - mix) * x + mix * delayed)) <|
    .load (.readInput 0 i) fun x => .done (shift (x + feedback * delayed) samples)

def run (sink : Sink Λ (DelayLogEvent α)) (register : DelayRegister α Λ) (_frames : ℕ) :
    Prog α (DelayRegister α Λ) :=
  .load (.controlInput 2) fun delayMs =>
  .load (.controlInput 3) fun feedbackRaw =>
  .load (.controlInput 4) fun mixRaw =>
  .op (.audioInOut 0 1) fun
    | .slices input output =>
      (Prog.loop
        (frame (min (delaySamples delayMs register.sampleRate) (register.samples.length - 1))
          (Sample.clamp feedbackRaw 0 feedbackCap) (Sample.clamp mixRaw 0 1))
        (min input.len output.len) 0 register.samples).map fun samples =>
          { register with
            samples := samples
            logger := logFeedback sink register.logger feedbackRaw }
    | _ => .fail (.assertion "not a pair of slices")

def plugin (sink : Sink Λ (DelayLogEvent α)) : Entry.Plugin α (DelayRegister α Λ) where
  uniqueId := (Delay.plugin sink).uniqueId
  label := (Delay.plugin sink).label
  name := (Delay.plugin sink).name
  maker := (Delay.plugin sink).maker
  copyright := (Delay.plugin sink).copyright
  ports := Delay.ports
  instantiate := fun sampleRate => .ok
    { samples := List.replicate (Delay.maxSamples α sampleRate) 0
      sampleRate := sampleRate
      logger := sink.new Delay.logCapacity }
  activate := fun register =>
    { register with samples := List.replicate register.samples.length 0 }
  run := run sink

end DelayRegister

namespace Delay

open Entry (Call Plugin Visit World)

section

variable {α Λ : Type} [Sample α] {sink : Sink Λ (DelayLogEvent α)}

/-- The register that a delay is, with its write index in the buffer. -/
def Is (delay : Delay α Λ) (register : DelayRegister α Λ) : Prop :=
  ∃ h : delay.WellFormed,
    register = ⟨(delay.line h).register, delay.sampleRate, delay.logger⟩

/-- A new delay is a register of zeros. -/
theorem instantiate_is (sink : Sink Λ (DelayLogEvent α)) (sampleRate : BitVec 32) (logger : Λ) :
    Is { instantiate sink sampleRate with logger := logger }
      ⟨List.replicate (maxSamples α sampleRate) 0, sampleRate, logger⟩ := by
  have hpos : 0 < maxSamples α sampleRate := Nat.succ_pos _
  exact ⟨instantiate_wellFormed sink sampleRate,
    congrArg (DelayRegister.mk · _ _) (DelayLine.register_zeros hpos).symm⟩

omit [Sample α] in
theorem getElem?_stepsBack (l : DelayLine α) {offset : ℕ} (hoffset : offset ≤ l.len) :
    l.register[stepsBack l.register.length offset - 1]? = some (l.ago offset) := by
  rw [DelayLine.register_length,
    DelayLine.getElem?_register (stepsBack_pos l.len_pos offset) (stepsBack_le hoffset)]
  by_cases hzero : offset = 0
  · rw [stepsBack, if_pos hzero, hzero, DelayLine.ago_zero]
  · rw [stepsBack, if_neg hzero]

/-- **The loops do the same**, sample by sample. -/
theorem processSamples_related {len offset : ℕ} (hoffset : offset ≤ len) (feedback mix : α)
    (n i : ℕ) (l : DelayLine α) (hlen : l.len = len) :
    (processSamples 0 1 len offset feedback mix n i l.buffer l.writeIndex).Related
      (fun line samples => ∃ l' : DelayLine α, line = (l'.buffer, l'.writeIndex) ∧
        samples = l'.register)
      (Prog.loop (DelayRegister.frame offset feedback mix) n i l.register) := by
  induction n generalizing i l with
  | zero => exact ⟨l, rfl, rfl⟩
  | succ n ih =>
    subst hlen
    have hread : l.buffer[(l.writeIndex + l.len - offset) % l.len]? = some (l.ago offset) :=
      l.getElem?_back offset
    rw [Prog.loop, DelayRegister.frame, getElem?_stepsBack l hoffset]
    simp only [processSamples, hread]
    rw [Prog.bind_load]
    refine .load fun x => ?_
    rw [Prog.bind_store, Prog.bind_load]
    refine .store (.load fun x => ?_)
    rw [if_pos l.writeIndex_lt, Prog.bind, ← DelayLine.register_push]
    exact ih (i + 1) (l.push (x + feedback * l.ago offset)) (DelayLine.len_push l _)

theorem applyDelay_related (l : DelayLine α) (frames delaySamples : ℕ) (feedback mix : α) :
    (applyDelay l.buffer l.writeIndex 0 1 frames delaySamples feedback mix).Related
      (fun line samples => ∃ l' : DelayLine α, line = (l'.buffer, l'.writeIndex) ∧
        samples = l'.register)
      (Prog.loop (DelayRegister.frame (min delaySamples (l.register.length - 1)) feedback mix)
        frames 0 l.register) := by
  rw [applyDelay, if_neg (Nat.ne_zero_of_lt l.writeIndex_lt), DelayLine.register_length]
  exact processSamples_related ((Nat.min_le_right _ _).trans (Nat.sub_le _ _)) feedback mix frames 0
    l rfl

/-- Delay and register are plugins in each other's place. -/
theorem bisimilar_register (sink : Sink Λ (DelayLogEvent α)) :
    (plugin sink).Bisimilar (DelayRegister.plugin sink) Is where
  ports := rfl
  instantiate := by
    intro rate
    exact .inr ⟨_, _, rfl, rfl, instantiate_is sink rate _⟩
  activate := by
    rintro delay register ⟨h, rfl⟩
    refine ⟨h.activate, ?_⟩
    have hpos : 0 < delay.buffer.length := Nat.zero_lt_of_lt h
    have hzeros := DelayLine.register_zeros (α := α) hpos
    have hlength : (delay.line h).register.length = delay.buffer.length :=
      DelayLine.register_length _
    change DelayRegister.mk (List.replicate _ 0) _ _ = _
    rw [hlength]
    exact congrArg (DelayRegister.mk · _ _) hzeros.symm
  deactivate := id
  run := by
    rintro delay register ⟨h, rfl⟩ frames
    refine .load fun delayMs => .load fun feedbackRaw => .load fun mixRaw => ⟨rfl, ?_⟩
    rintro (_ | _ | ⟨input, output⟩ | _ | _ | _)
    case slices =>
      refine (applyDelay_related (delay.line h) _ _ _ _).map ?_
      rintro line samples ⟨l', rfl, rfl⟩
      exact ⟨l'.writeIndex_lt, rfl⟩
    all_goals exact rfl

/-- **A delay is a shift register.** Whatever a host does, with any number of instances, on any
memory and with any bindings: the calls return and fail alike, the memory and the calls that
reach the plugins are the same, and behind each handle is the register of the delay. -/
theorem is_shift_register (sink : Sink Λ (DelayLogEvent α)) (memory : Memory α)
    (cs : List (Call α)) :
    Option.Rel (World.Like Is) (Transition.run World.step (.start (plugin sink) memory) cs)
      (Transition.run World.step (.start (DelayRegister.plugin sink) memory) cs) :=
  (World.start_like memory).run (bisimilar_register sink) cs

end

-- ════════════════════════════════════════════════════════════════════════
-- Silence
-- ════════════════════════════════════════════════════════════════════════

section

variable {Λ : Type} {sink : Sink Λ (DelayLogEvent ℚ)}

/-- The input of a run is silent, if it has one. -/
def Silent (ports : Ports ℚ) (m : Memory ℚ) : Prop :=
  ∀ s, ports.audioInput 0 = .ok s → ∀ p ∈ s.region, m p = 0

section Silent

variable {σ : Type} {ports : Ports ℚ} {m : Memory ℚ} {r : σ × Memory ℚ}

theorem silent_load {i : ℕ} {next : ℚ → Prog ℚ σ} (hm : Silent ports m)
    (h : (Prog.load (.readInput 0 i) next).exec ports m = .ok r) :
    (next 0).exec ports m = .ok r := by
  rw [Prog.load, Prog.exec_readInput] at h
  obtain ⟨p, hp, h⟩ := Port.bind_eq_ok.mp h
  obtain ⟨s, hs, helement⟩ := Port.bind_eq_ok.mp hp
  rw [hm s hs p (s.element_mem helement)] at h
  exact h

theorem silent_store {i : ℕ} {next : Prog ℚ σ} (hm : Silent ports m)
    (h : (Prog.store (.writeOutput 1 i 0) next).exec ports m = .ok r) :
    ∃ m', Silent ports m' ∧ next.exec ports m' = .ok r := by
  obtain ⟨effect, hresolve, h⟩ := Prog.exec_op_eq_ok.mp h
  obtain ⟨output, -, hresolve⟩ := Port.bind_eq_ok.mp hresolve
  obtain ⟨p, -, heq⟩ := Port.bind_eq_ok.mp hresolve
  cases heq
  refine ⟨Function.update m p 0, fun s hs q hq => ?_, h⟩
  by_cases hqp : q = p
  · rw [hqp, Function.update_self]
  · rw [Function.update_of_ne hqp]
    exact hm s hs q hq

/-- A register of zeros stays one over silent frames. -/
theorem silent_loop {len offset : ℕ} (hlen : 0 < len) (feedback mix : ℚ) {n i : ℕ}
    {m' : Memory ℚ} (hm : Silent ports m) {samples : List ℚ}
    (h : (Prog.loop (DelayRegister.frame offset feedback mix) n i
      (List.replicate len 0)).exec ports m = .ok (samples, m')) :
    samples = List.replicate len 0 := by
  induction n generalizing i m with
  | zero =>
    cases h
    rfl
  | succ n ih =>
    rw [Prog.loop, DelayRegister.frame, List.getElem?_replicate] at h
    by_cases hread : stepsBack (List.replicate len (0 : ℚ)).length offset - 1 < len
    · rw [if_pos hread] at h
      simp only [Prog.bind_load, Prog.bind_store] at h
      -- silence is read twice, and the silence put out between may be what is read
      have hstore := silent_load hm h
      rw [mul_zero, mul_zero, add_zero] at hstore
      obtain ⟨m₁, hm₁, hload⟩ := silent_store hm hstore
      have hrest := silent_load hm₁ hload
      rw [mul_zero, add_zero, Prog.bind, ShiftRegister.shift_replicate hlen] at hrest
      exact ih hm₁ hrest
    · rw [if_neg hread] at h
      exact ih hm h

/-- A silent run of a register of zeros changes its log at most. -/
theorem silent_run {len : ℕ} (hlen : 0 < len) {sampleRate : BitVec 32} {logger : Λ} (frames : ℕ)
    {register : DelayRegister ℚ Λ} {m' : Memory ℚ} (hm : Silent ports m)
    (h : (DelayRegister.run sink ⟨List.replicate len 0, sampleRate, logger⟩ frames).exec ports m =
      .ok (register, m')) :
    ∃ logger', register = ⟨List.replicate len 0, sampleRate, logger'⟩ := by
  rw [DelayRegister.run, Prog.load, Prog.exec_control] at h
  obtain ⟨delayMs, -, h⟩ := Port.bind_eq_ok.mp h
  change (Prog.load _ _).exec ports m = _ at h
  rw [Prog.load, Prog.exec_control] at h
  obtain ⟨feedbackRaw, -, h⟩ := Port.bind_eq_ok.mp h
  change (Prog.load _ _).exec ports m = _ at h
  rw [Prog.load, Prog.exec_control] at h
  obtain ⟨mixRaw, -, h⟩ := Port.bind_eq_ok.mp h
  obtain ⟨effect, hresolve, h⟩ := Prog.exec_op_eq_ok.mp h
  obtain ⟨slices, -, heq⟩ := Port.bind_eq_ok.mp hresolve
  cases heq
  change (Prog.map _ _).exec ports m = _ at h
  rw [Prog.exec_map_eq] at h
  obtain ⟨⟨samples, m₁⟩, hloop, heq⟩ := Entry.except_map_eq_ok h
  cases heq
  rw [silent_loop hlen _ _ hm hloop]
  exact ⟨_, rfl⟩

end Silent

/-- A call that gives a delay nothing but silence. -/
def SilentVisit : Visit ℚ → Prop
  | .run c => Silent c.ports c.memory
  | _ => True

/-- **Step lemma**: a register of zeros stays one. -/
theorem silent_visit {len : ℕ} (hlen : 0 < len) {sampleRate : BitVec 32} {delay delay' : Delay ℚ Λ}
    {v : Visit ℚ} (hv : SilentVisit v)
    (h : delay.Is ⟨List.replicate len 0, sampleRate, delay.logger⟩)
    (hvisit : (plugin sink).visit delay v = some delay') :
    delay'.Is ⟨List.replicate len 0, sampleRate, delay'.logger⟩ := by
  cases v with
  | activate =>
    cases hvisit
    have hzeros := (bisimilar_register sink).activate h
    change delay.activate.Is ⟨List.replicate (List.replicate len (0 : ℚ)).length 0, _, _⟩ at hzeros
    rw [List.length_replicate] at hzeros
    exact hzeros
  | deactivate =>
    cases hvisit
    exact h
  | run c =>
    obtain ⟨memory, hcycle⟩ := Plugin.visit_run.mp hvisit
    rcases ((bisimilar_register sink).run h c.ports.frames).exec c.ports c.memory with
      ⟨panic, hpanic, -⟩ | ⟨state, register, m', hexec, hexec', hwell, heq⟩
    · cases hcycle.symm.trans hpanic
    · obtain ⟨logger', rfl⟩ := silent_run hlen c.ports.frames hv hexec'
      obtain ⟨rfl, -⟩ := Prod.mk.inj (Except.ok.inj (hcycle.symm.trans hexec))
      have hlogger : logger' = delay'.logger := congrArg DelayRegister.logger heq
      exact ⟨hwell, hlogger ▸ heq⟩

/-- Delays that are the same, or differ in where their lines are written next. -/
def Turned (delay delay' : Delay ℚ Λ) : Prop :=
  delay = delay' ∨ ∃ register, delay.Is register ∧ delay'.Is register

theorem bisimilar_turned (sink : Sink Λ (DelayLogEvent ℚ)) :
    (plugin sink).Bisimilar (plugin sink) Turned where
  ports := rfl
  instantiate rate := .inr ⟨_, _, rfl, rfl, .inl rfl⟩
  activate := by
    rintro delay delay' (rfl | ⟨register, h, h'⟩)
    · exact .inl rfl
    · exact .inr ⟨_, (bisimilar_register sink).activate h, (bisimilar_register sink).activate h'⟩
  deactivate := id
  run := by
    rintro delay delay' (rfl | ⟨register, h, h'⟩) frames
    · exact .refl (fun _ => .inl rfl) _
    · have hregister := (bisimilar_register sink).run h frames
      have hregister' := (bisimilar_register sink).run h' frames
      exact hregister.through hregister' fun _ _ last hlast hlast' => .inr ⟨last, hlast, hlast'⟩

/-- **Silence leaves no trace.** An instance that has heard nothing but silence, in any number of
runs with any controls, may be replaced by a new one with the same log: whatever the host does
then, the calls return and fail alike and the memory is the same. -/
theorem new_behind_silence (sink : Sink Λ (DelayLogEvent ℚ)) {sampleRate : BitVec 32}
    {vs : List (Visit ℚ)} (hvs : ∀ v ∈ vs, SilentVisit v) {w : World (plugin sink)}
    {handle : Entry.Handle} {inst : Entry.Instance (plugin sink)}
    (hlive : w.heap handle = some inst)
    (hhistory : Transition.run (plugin sink).visit (instantiate sink sampleRate) vs =
      some inst.plugin) (cs : List (Call ℚ)) :
    Option.Rel (World.Like Turned) (Transition.run World.step w cs)
      (Transition.run World.step
        (w.put handle (some { inst with
          plugin := { instantiate sink sampleRate with logger := inst.plugin.logger } })) cs) := by
  have hpos : 0 < maxSamples ℚ sampleRate := Nat.succ_pos _
  have hsilent : inst.plugin.Is
      ⟨List.replicate (maxSamples ℚ sampleRate) 0, sampleRate, inst.plugin.logger⟩ := by
    exact Transition.run_invariant
      (I := fun d => d.Is ⟨List.replicate (maxSamples ℚ sampleRate) 0, sampleRate, d.logger⟩)
      (fun _ v _ hmem h => silent_visit hpos (hvs v hmem) h) hhistory
      (instantiate_is sink sampleRate _)
  have hnew := instantiate_is sink sampleRate inst.plugin.logger
  refine World.Like.run (bisimilar_turned sink) ?_ cs
  refine ⟨fun k => ?_, rfl, rfl⟩
  rw [World.put_heap]
  by_cases hk : k = handle
  · rw [if_pos hk, hk, hlive]
    exact .some ⟨.inr ⟨_, hsilent, hnew⟩, rfl⟩
  · rw [if_neg hk]
    -- each other instance is in its own place
    cases w.heap k with
    | none => exact .none
    | some other => exact .some ⟨.inl rfl, rfl⟩

/-- A world with one delay, that has heard one silent sample. -/
theorem new_behind_a_silent_sample : ∃ delay,
    Transition.run (plugin acceptAll).visit (instantiate acceptAll 48000#32)
      [.run (oneTurn (0 : ℚ) 1 2 1).cycle] = some delay ∧
    Option.Rel (World.Like Turned)
      (Transition.run World.step
        ((World.start (plugin acceptAll) fun _ => 0).put 8
          (some ⟨delay, [16, 32, 64, 65, 66], rfl⟩)) [.write 16 1, .run 8 4])
      (Transition.run World.step
        (((World.start (plugin acceptAll) fun _ => 0).put 8
          (some ⟨delay, [16, 32, 64, 65, 66], rfl⟩)).put 8
          (some ⟨{ instantiate acceptAll 48000#32 with logger := delay.logger },
            [16, 32, 64, 65, 66], rfl⟩)) [.write 16 1, .run 8 4]) := by
  have hrun := Plugin.visit_run.mpr ⟨_, (oneTurn (0 : ℚ) 1 2 1).cycle_eq acceptAll _
    (instantiate_wellFormed acceptAll 48000#32)⟩
  have hhistory := Transition.run_cons_eq_some.mpr ⟨_, hrun, Transition.run_nil _⟩
  refine ⟨_, hhistory, new_behind_silence acceptAll ?_ ((World.put_heap ..).trans (if_pos rfl))
    hhistory _⟩
  refine List.forall_mem_singleton.mpr fun s hs p hp => ?_
  cases hs
  obtain rfl : p = 10 := Nat.le_antisymm (Nat.le_of_lt_succ hp.2) hp.1
  rfl

end

end Delay
