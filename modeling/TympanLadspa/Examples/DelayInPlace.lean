import TympanLadspa.Entry.Isolation
import TympanLadspa.Examples.DelayBlock
import Mathlib.Tactic.LinearCombination
import Mathlib.Tactic.NormNum

/-!
# The delay plugin in place

`PROPERTIES` lets a host bind the input and the output of the delay plugin to one buffer.
The loop then reads the output sample back where it means the input sample, so the delay
line gets another value unless the two agree. `block_shared_iff` says when a block is not
affected, `in_place_iff` when a sequence of runs is not.
-/

namespace Delay

open Port (Ptr Memory Ports Panic Prog Slice Sample)

/-- The steps an offset reads back: no step comes to all the steps round. -/
def stepsBack (len offset : ℕ) : ℕ := if offset = 0 then len else offset

theorem stepsBack_pos {len : ℕ} (hlen : 0 < len) (offset : ℕ) : 0 < stepsBack len offset := by
  by_cases hzero : offset = 0
  · rw [stepsBack, if_pos hzero]
    exact hlen
  · rw [stepsBack, if_neg hzero]
    exact Nat.pos_of_ne_zero hzero

theorem stepsBack_le {len offset : ℕ} (hoffset : offset ≤ len) : stepsBack len offset ≤ len := by
  by_cases hzero : offset = 0
  · rw [stepsBack, if_pos hzero]
  · rw [stepsBack, if_neg hzero]
    exact hoffset

section Block

variable {α : Type} [Field α] {shared shared' : Bool} {steps : ℕ} {feedback mix : α}
  {l l' : DelayLine α}

/-- Reading no step back is reading the oldest cell. -/
theorem block_zero (l : DelayLine α) (xs : List α) :
    block shared 0 feedback mix l xs = block shared l.len feedback mix l xs := by
  have htick : ∀ (l : DelayLine α) (x : α),
      tick shared 0 feedback mix l x = tick shared l.len feedback mix l x := by
    intro l x
    simp only [tick, l.ago_zero]
  induction xs generalizing l with
  | nil => rfl
  | cons x xs ih => rw [block_cons, block_cons, htick, ih, len_tick]

theorem block_stepsBack (shared : Bool) (l : DelayLine α) (offset : ℕ) (xs : List α) :
    block shared offset feedback mix l xs =
      block shared (stepsBack l.len offset) feedback mix l xs := by
  by_cases hzero : offset = 0
  · rw [stepsBack, if_pos hzero, hzero, block_zero]
  · rw [stepsBack, if_neg hzero]

/-- Without a wet part, the output sample is the input sample. -/
theorem block_of_dry (l : DelayLine α) (xs : List α) :
    block true steps feedback 0 l xs = block false steps feedback 0 l xs := by
  have htick : ∀ (l : DelayLine α) (x : α),
      tick true steps feedback 0 l x = tick false steps feedback 0 l x := by
    intro l x
    simp [tick]
  induction xs generalizing l with
  | nil => rfl
  | cons x xs ih => rw [block_cons, block_cons, htick, ih]

/-- A difference in a cell that is still to be read shows in the outputs or in the line. -/
theorem block_ne_of_ago_ne (hmix : mix ≠ 0) (hlen : l.len = l'.len) (hsteps : steps ≤ l.len)
    {d : ℕ} (hd : 1 ≤ d) (hle : d ≤ steps) (hne : l.ago d ≠ l'.ago d) (xs : List α) :
    block shared steps feedback mix l xs ≠ block shared' steps feedback mix l' xs := by
  induction xs generalizing l l' d with
  | nil =>
    intro heq
    rw [(Prod.mk.inj heq).2] at hne
    exact hne rfl
  | cons x xs ih =>
    rw [block_cons, block_cons]
    intro heq
    obtain ⟨houts, hlines⟩ := Prod.mk.inj heq
    obtain ⟨hout, hrest⟩ := List.cons.inj houts
    rcases Nat.eq_or_lt_of_le hle with rfl | hlt
    · -- the difference is read now
      simp only [tick] at hout
      exact hne (mul_left_cancel₀ hmix (add_left_cancel hout))
    · -- the difference is one step older behind this sample
      refine ih (by simpa using hlen) (by simpa using hsteps) (Nat.le_add_left 1 d) hlt ?_
        (Prod.ext hrest hlines)
      simp only [tick]
      rw [DelayLine.ago_push_succ hd (by omega), DelayLine.ago_push_succ hd (by omega)]
      exact hne

/-- Each sample is the one that comes out of the line. -/
def Echo (steps : ℕ) (feedback : α) : DelayLine α → List α → Prop
  | _, [] => True
  | l, x :: xs => x = l.ago steps ∧ Echo steps feedback (l.push ((1 + feedback) * x)) xs

/-- **A block in place**: with a wet part, it comes out as it does with two buffers exactly
when each sample is the one that comes out of the line. -/
theorem block_shared_iff (hmix : mix ≠ 0) (hpos : 1 ≤ steps) (hsteps : steps ≤ l.len)
    (xs : List α) :
    block true steps feedback mix l xs = block false steps feedback mix l xs ↔
      Echo steps feedback l xs := by
  induction xs generalizing l with
  | nil => exact ⟨fun _ => trivial, fun _ => rfl⟩
  | cons x xs ih =>
    rw [block_cons, block_cons]
    by_cases hx : x = l.ago steps
    · have htick : ∀ shared, tick shared steps feedback mix l x =
          (x, l.push ((1 + feedback) * x)) := by
        intro shared
        have hout : (1 - mix) * x + mix * l.ago steps = x := by
          rw [← hx]
          ring
        have hpush : x + feedback * l.ago steps = (1 + feedback) * x := by
          rw [← hx]
          ring
        simp only [tick, hout, ite_self, hpush]
      rw [htick, htick, Echo, ← ih (by simpa using hsteps)]
      constructor
      · intro heq
        obtain ⟨houts, hlines⟩ := Prod.mk.inj heq
        exact ⟨hx, Prod.ext (List.cons.inj houts).2 hlines⟩
      · rintro ⟨-, heq⟩
        rw [heq]
    · refine iff_of_false (fun heq => ?_) fun hecho => hx hecho.1
      obtain ⟨houts, hlines⟩ := Prod.mk.inj heq
      refine block_ne_of_ago_ne hmix (by simp) (by simpa using hsteps) le_rfl hpos ?_ xs
        (Prod.ext (List.cons.inj houts).2 hlines)
      -- the sample read back is not the sample
      simp only [tick, if_true, Bool.false_eq_true, if_false, DelayLine.ago_push_one]
      intro hstored
      have hzero : mix * (l.ago steps - x) = 0 := by
        linear_combination hstored
      rcases mul_eq_zero.mp hzero with h | h
      · exact hmix h
      · exact hx (sub_eq_zero.mp h).symm

/-- The samples of an echo: old cells first, then the block itself, one round of feedback
louder. -/
theorem echo_iff (hpos : 1 ≤ steps) (hsteps : steps ≤ l.len) (m : Memory α) (p : Ptr) (n : ℕ) :
    Echo steps feedback l (m.cells p n) ↔ ∀ k < n, m (p + k) =
      if k < steps then l.ago (steps - k) else (1 + feedback) * m (p + (k - steps)) := by
  induction n generalizing l p with
  | zero => exact ⟨nofun, fun _ => trivial⟩
  | succ n ih =>
    have hshift : ∀ k, (if k < steps then (l.push ((1 + feedback) * m p)).ago (steps - k)
        else (1 + feedback) * m (p + 1 + (k - steps))) =
        if k + 1 < steps then l.ago (steps - (k + 1))
        else (1 + feedback) * m (p + (k + 1 - steps)) := by
      intro k
      rcases Nat.lt_trichotomy (k + 1) steps with hlt | heq | hgt
      · rw [if_pos (by omega), if_pos hlt, show steps - k = steps - (k + 1) + 1 by omega,
          DelayLine.ago_push_succ (by omega) (by omega)]
      · rw [if_pos (by omega), if_neg (by omega), show steps - k = 1 by omega,
          show k + 1 - steps = 0 by omega, DelayLine.ago_push_one, Nat.add_zero]
      · rw [if_neg (by omega), if_neg (by omega), Nat.add_assoc,
          show 1 + (k - steps) = k + 1 - steps by omega]
    rw [Memory.cells, Echo, ih (by simpa using hsteps), Nat.forall_lt_succ_left,
      Nat.add_zero, if_pos (show 0 < steps from hpos), Nat.sub_zero]
    refine and_congr_right fun _ => forall₂_congr fun k _ => ?_
    rw [hshift, Nat.add_assoc, Nat.add_comm 1 k]

end Block

/-- A run of the plugin by a host: its memory, the bound pointers, and the buffer for the
output when it is not the one of the input. -/
structure HostCall where
  memory : Memory ℚ
  input : Ptr
  output : Ptr
  delayMs : Ptr
  feedback : Ptr
  mix : Ptr
  frames : ℕ
  distinct : input ≠ output
  apart : Disjoint (Slice.mk input frames).region (Slice.mk output frames).region

variable {Λ : Type} {sink : Sink Λ (DelayLogEvent ℚ)}

/-- Only the line tells runs of a block apart. -/
theorem process_eq_iff {α : Type} [Sample α] {sink : Sink Λ (DelayLogEvent α)}
    {shared shared' : Bool} {delay : Delay α Λ} {h : delay.WellFormed} {c : Controls α}
    {xs : List α} :
    process sink shared delay h c xs = process sink shared' delay h c xs ↔
      block shared (c.delay delay) (Sample.clamp c.feedback 0 feedbackCap)
          (Sample.clamp c.mix 0 1) (delay.line h) xs =
        block shared' (c.delay delay) (Sample.clamp c.feedback 0 feedbackCap)
          (Sample.clamp c.mix 0 1) (delay.line h) xs := by
  constructor
  · intro heq
    obtain ⟨houts, hdelay⟩ := Prod.mk.inj heq
    obtain ⟨-, hbuffer, hindex, -⟩ := Delay.mk.inj hdelay
    refine Prod.ext houts ?_
    revert hbuffer hindex
    generalize (block shared _ _ _ _ xs).2 = l
    generalize (block shared' _ _ _ _ xs).2 = l'
    obtain ⟨buffer, writeIndex, _⟩ := l
    obtain ⟨buffer', writeIndex', _⟩ := l'
    rintro rfl rfl
    rfl
  · intro heq
    simp only [process, heq]

namespace HostCall

/-- The ports of the run, with the output where `output` says. -/
def ports (c : HostCall) (output : Ptr) : Ports ℚ :=
  { ptrs := [c.input, output, c.delayMs, c.feedback, c.mix]
    descriptors := Delay.ports
    frames := c.frames }

def controls (c : HostCall) : Controls ℚ :=
  ⟨c.memory c.delayMs, c.memory c.feedback, c.memory c.mix⟩

/-- The plugin and the samples in the output buffer behind the run. -/
def exec (sink : Sink Λ (DelayLogEvent ℚ)) (c : HostCall) (output : Ptr) (delay : Delay ℚ Λ) :
    Except Panic (Delay ℚ Λ × List ℚ) :=
  match (run sink delay c.frames).exec (c.ports output) c.memory with
  | .error panic => .error panic
  | .ok (delay', m) => .ok (delay', m.cells output c.frames)

/-- The run cannot tell: nothing is mixed in, or each sample is the one that comes out of the
delay line, an old cell first and then an earlier sample with its feedback. -/
def Harmless (c : HostCall) (delay : Delay ℚ Λ) : Prop :=
  let len := delay.buffer.length
  let offset := c.controls.delay delay
  let steps := stepsBack len offset
  Sample.clamp c.controls.mix 0 1 = 0 ∨ ∀ k < c.frames, c.memory (c.input + k) =
    if k < steps then (delay.buffer[(delay.writeIndex + k + len - offset) % len]?).getD 0
    else (1 + Sample.clamp c.controls.feedback 0 feedbackCap) *
      c.memory (c.input + (k - steps))

theorem exec_eq (c : HostCall) {output : Ptr} (hapart : c.input = output ∨
      Disjoint (Slice.mk c.input c.frames).region (Slice.mk output c.frames).region)
    {delay : Delay ℚ Λ} (h : delay.WellFormed) :
    c.exec sink output delay =
      .ok (process sink (decide (c.input = output)) delay h c.controls
        (c.memory.cells c.input c.frames)).swap := by
  have hrun : (run sink delay c.frames).exec (c.ports output) c.memory =
      .ok ((process sink (decide (c.input = output)) delay h c.controls
          (c.memory.cells c.input c.frames)).2,
        c.memory.overwrite output (process sink (decide (c.input = output)) delay h c.controls
          (c.memory.cells c.input c.frames)).1) :=
    run_exec sink rfl rfl rfl rfl rfl hapart delay h c.memory
  have hcells := Memory.cells_overwrite c.memory output (process sink
    (decide (c.input = output)) delay h c.controls (c.memory.cells c.input c.frames)).1
  rw [process_length, Memory.cells_length] at hcells
  rw [exec, hrun]
  simp only [hcells]
  rfl

/-- In place, with the output back in the input buffer. -/
theorem exec_input (c : HostCall) {delay : Delay ℚ Λ} (h : delay.WellFormed) :
    c.exec sink c.input delay =
      .ok (process sink true delay h c.controls (c.memory.cells c.input c.frames)).swap := by
  rw [c.exec_eq (.inl rfl) h, decide_eq_true rfl]

/-- With two buffers. -/
theorem exec_output (c : HostCall) {delay : Delay ℚ Λ} (h : delay.WellFormed) :
    c.exec sink c.output delay =
      .ok (process sink false delay h c.controls (c.memory.cells c.input c.frames)).swap := by
  rw [c.exec_eq (.inr c.apart) h, decide_eq_false c.distinct]

/-- The old cells in the words of the source. -/
theorem ago_eq_getElem? {delay : Delay ℚ Λ} (h : delay.WellFormed) {offset k : ℕ}
    (hoffset : offset < delay.buffer.length) (hk : k < stepsBack delay.buffer.length offset) :
    (delay.line h).ago (stepsBack delay.buffer.length offset - k) =
      (delay.buffer[(delay.writeIndex + k + delay.buffer.length - offset) %
        delay.buffer.length]?).getD 0 := by
  have hback : (delay.line h).back (stepsBack delay.buffer.length offset - k) =
      (delay.writeIndex + k + delay.buffer.length - offset) % delay.buffer.length := by
    show (delay.writeIndex + delay.buffer.length - _) % delay.buffer.length = _
    unfold stepsBack at hk ⊢
    by_cases hzero : offset = 0
    · rw [if_pos hzero] at hk
      rw [if_pos hzero, hzero, Nat.sub_zero, Nat.add_mod_right]
      congr 1
      omega
    · rw [if_neg hzero] at hk
      rw [if_neg hzero]
      congr 1
      omega
  rw [← hback]
  exact (congrArg (Option.getD · 0) ((delay.line h).getElem?_back _)).symm

/-- **One run in place**: the same outputs and the same state as with two buffers, exactly
when the run cannot tell. -/
theorem exec_input_eq_iff (sink : Sink Λ (DelayLogEvent ℚ)) (c : HostCall)
    {delay : Delay ℚ Λ} (h : delay.WellFormed) :
    c.exec sink c.input delay = c.exec sink c.output delay ↔ c.Harmless delay := by
  have hlen : 0 < delay.buffer.length := Nat.zero_lt_of_lt h
  have hoffset : c.controls.delay delay < delay.buffer.length := by
    unfold Controls.delay
    omega
  rw [c.exec_input h, c.exec_output h, Except.ok.injEq, Prod.swap_inj, process_eq_iff]
  unfold Harmless
  generalize c.controls.delay delay = offset at hoffset
  by_cases hmix : Sample.clamp c.controls.mix 0 1 = 0
  · rw [hmix]
    exact iff_of_true (block_of_dry _ _) (.inl rfl)
  · have hpos : 1 ≤ stepsBack (delay.line h).len offset := stepsBack_pos hlen offset
    have hsteps : stepsBack (delay.line h).len offset ≤ (delay.line h).len :=
      stepsBack_le hoffset.le
    rw [or_iff_right hmix, block_stepsBack true, block_stepsBack false]
    refine (block_shared_iff hmix hpos hsteps _).trans ((echo_iff hpos hsteps ..).trans ?_)
    refine forall₂_congr fun k _ => ?_
    by_cases hk : k < stepsBack delay.buffer.length offset
    · rw [← ago_eq_getElem? h hoffset hk]
      rfl
    · rw [if_neg hk]
      exact Eq.congr_right (if_neg hk)

end HostCall

/-- A sequence of runs in place and one with two buffers, side by side: the same state and
the same output samples after each run. -/
def AgreesInPlace (sink : Sink Λ (DelayLogEvent ℚ)) : Delay ℚ Λ → List HostCall → Prop
  | _, [] => True
  | delay, c :: cs => ∃ delay' outs, c.exec sink c.output delay = .ok (delay', outs) ∧
      c.exec sink c.input delay = .ok (delay', outs) ∧ AgreesInPlace sink delay' cs

/-- No run of a sequence can tell. -/
def HarmlessInPlace (sink : Sink Λ (DelayLogEvent ℚ)) : Delay ℚ Λ → List HostCall → Prop
  | _, [] => True
  | delay, c :: cs => c.Harmless delay ∧
      ∀ delay' outs, c.exec sink c.output delay = .ok (delay', outs) →
        HarmlessInPlace sink delay' cs

theorem agreesInPlace_iff {delay : Delay ℚ Λ} (h : delay.WellFormed) (cs : List HostCall) :
    AgreesInPlace sink delay cs ↔ HarmlessInPlace sink delay cs := by
  induction cs generalizing delay with
  | nil => exact Iff.rfl
  | cons c cs ih =>
    have hnext := process_wellFormed sink false delay h c.controls
      (c.memory.cells c.input c.frames)
    rw [AgreesInPlace, HarmlessInPlace, ← c.exec_input_eq_iff sink h,
      c.exec_output h]
    constructor
    · rintro ⟨delay', outs, hout, hin, hrest⟩
      refine ⟨hin.trans hout.symm, ?_⟩
      rintro _ _ ⟨⟩
      cases hout
      exact (ih hnext).mp hrest
    · rintro ⟨hin, hrest⟩
      exact ⟨_, _, rfl, hin, (ih hnext).mpr (hrest _ _ rfl)⟩

/-- The write index of a delay is in its buffer whenever a host can get hold of one. -/
theorem wellFormed_of_live {memory : Memory ℚ} {as : List (Entry.Call ℚ)}
    {w : Entry.World (plugin sink)} {handle : Entry.Handle}
    {inst : Entry.Instance (plugin sink)}
    (hrun : Transition.run Entry.World.step (.start (plugin sink) memory) as = some w)
    (hlive : w.heap handle = some inst) : inst.plugin.WellFormed := by
  refine Entry.plugin_invariant (I := WellFormed) ?_ ?_ ?_ ?_ hrun hlive
  · rintro rate delay ⟨⟩
    exact instantiate_wellFormed sink rate
  · exact fun delay h => h.activate
  · exact fun delay frames h => run_returns sink h frames
  · exact fun delay h => h

/-- **The delay plugin in place.** In every state a host can bring it to, a sequence of runs
with the output in the input buffer gives the same outputs and the same states as with two
buffers exactly when none of its runs can tell. -/
theorem in_place_iff {memory : Memory ℚ} {as : List (Entry.Call ℚ)}
    {w : Entry.World (plugin sink)} {handle : Entry.Handle}
    {inst : Entry.Instance (plugin sink)}
    (hrun : Transition.run Entry.World.step (.start (plugin sink) memory) as = some w)
    (hlive : w.heap handle = some inst) (cs : List HostCall) :
    AgreesInPlace sink inst.plugin cs ↔ HarmlessInPlace sink inst.plugin cs :=
  agreesInPlace_iff (wellFormed_of_live hrun hlive) cs

/-- A log that takes every event. -/
def acceptAll : Sink Unit (DelayLogEvent ℚ) := ⟨fun _ => (), fun _ _ => (true, ())⟩

/-- One sample, delayed by a millisecond, with half the feedback and half the mix. -/
def oneSample (sample : ℚ) : HostCall where
  memory := fun ptr => if ptr = 10 then sample else if ptr = 30 then 1 else 1 / 2
  input := 10
  output := 20
  delayMs := 30
  feedback := 31
  mix := 32
  frames := 1
  distinct := by decide
  apart := Set.disjoint_left.mpr fun a ha ha' =>
    absurd (lt_of_le_of_lt ha'.1 ha.2) (by decide)

/-- A new delay is silent: only a silent sample goes unnoticed. -/
theorem harmless_oneSample_iff {sample : ℚ} :
    (oneSample sample).Harmless (instantiate acceptAll 48000#32) ↔ sample = 0 := by
  have hmix : Sample.clamp (oneSample sample).controls.mix 0 1 ≠ (0 : ℚ) := by
    norm_num [oneSample, HostCall.controls, Sample.clamp]
  unfold HostCall.Harmless
  rw [or_iff_right hmix]
  generalize (oneSample sample).controls.delay (instantiate acceptAll 48000#32) = offset
  have hlen : 0 < (instantiate acceptAll 48000#32).buffer.length :=
    Nat.zero_lt_of_lt (instantiate_wellFormed _ _)
  have hsteps : 0 < stepsBack (instantiate acceptAll 48000#32).buffer.length offset :=
    stepsBack_pos hlen offset
  have hsilent : ∀ i : ℕ, ((instantiate acceptAll 48000#32).buffer[i]?).getD 0 = (0 : ℚ) := by
    intro i
    rw [instantiate, List.getElem?_replicate]
    split <;> rfl
  constructor
  · intro h
    have hzero := h 0 Nat.zero_lt_one
    rw [if_pos hsteps, hsilent] at hzero
    exact hzero
  · rintro rfl k hk
    obtain rfl : k = 0 := Nat.lt_one_iff.mp hk
    rw [if_pos hsteps, hsilent]
    rfl

/-- A host with one new delay. -/
def oneDelay : Entry.World (plugin acceptAll) :=
  (Entry.World.start (plugin acceptAll) fun _ => 0).put 1
    (some (.new (plugin acceptAll) (instantiate acceptAll 48000#32)))

theorem oneDelay_run :
    Transition.run Entry.World.step (.start (plugin acceptAll) fun _ => 0)
      [.instantiate 48000#64 1] = some oneDelay := rfl

theorem oneDelay_heap : oneDelay.heap 1 =
    some (.new (plugin acceptAll) (instantiate acceptAll 48000#32)) := rfl

/-- **A failing run**: a sample of one into a new delay. -/
theorem one_differs_in_place :
    (plugin acceptAll).properties = 0#32 ∧
      ∃ (w : Entry.World (plugin acceptAll)) (inst : Entry.Instance (plugin acceptAll)),
        Transition.run Entry.World.step (.start (plugin acceptAll) fun _ => 0)
          [.instantiate 48000#64 1] = some w ∧
        w.heap 1 = some inst ∧ ¬ AgreesInPlace acceptAll inst.plugin [oneSample 1] := by
  refine ⟨rfl, oneDelay, .new (plugin acceptAll) (instantiate acceptAll 48000#32),
    oneDelay_run, oneDelay_heap, fun hagrees => ?_⟩
  have hharmless := (agreesInPlace_iff (instantiate_wellFormed _ _) _).mp hagrees
  exact one_ne_zero (harmless_oneSample_iff.mp hharmless.1)

/-- A silent sample into a new delay, and then another one. -/
theorem in_place_behind_silence :
    (oneSample 0).Harmless (instantiate acceptAll 48000#32) ∧
      (AgreesInPlace acceptAll (instantiate acceptAll 48000#32) [oneSample 0, oneSample 1] ↔
        HarmlessInPlace acceptAll (instantiate acceptAll 48000#32)
          [oneSample 0, oneSample 1]) :=
  ⟨harmless_oneSample_iff.mpr rfl, in_place_iff oneDelay_run oneDelay_heap _⟩

end Delay
