import TympanLadspa.Examples.DelayInPlace
import TympanLadspa.Examples.DelaySlices

/-!
# A run of the delay on any buffers

A host may bind the input and the output to two buffers, to one, or to two that overlap:
`PROPERTIES` is zero. The loop reads an input sample, writes the output sample, and reads the
input sample again for the delay line, so that an output sample may come back as this input
sample or as a later one.
-/

namespace Delay

open Port (Ptr Memory Slice Sample)

variable {α Λ : Type}

section Sweep

variable [One α] [Add α] [Sub α] [Mul α]

variable {delay : ℕ} {feedback mix : α} {input output : Ptr} {l : DelayLine α} {m : Memory α}

omit [One α] [Add α] [Sub α] [Mul α] in
/-- The input sample that is read back: the output sample, when it was written there. -/
theorem update_read_back {x : α} :
    Function.update m output x input = if output = input then x else m input := by
  by_cases hsame : output = input
  · rw [if_pos hsame, hsame, Function.update_self]
  · rw [if_neg hsame, Function.update_of_ne (Ne.symm hsame)]

/-- What is below the output stays. -/
theorem sweep_of_lt {p : Ptr} (hp : p < output) (n : ℕ) :
    (sweep delay feedback mix n input output l m).2 p = m p := by
  induction n generalizing input output l m with
  | zero => rfl
  | succ n ih =>
    rw [sweep_succ, ih (Nat.lt_succ_of_lt hp), Function.update_of_ne (Nat.ne_of_lt hp)]

/-- The first output sample stays as it is written. -/
theorem sweep_head (n : ℕ) (input output : Ptr) (l : DelayLine α) (m : Memory α) :
    (sweep delay feedback mix (n + 1) input output l m).2 output =
      (1 - mix) * m input + mix * l.ago delay := by
  rw [sweep_succ, sweep_of_lt (Nat.lt_succ_self output), Function.update_self]

variable (delay) in
/-- **Invariant rule for sweeps.** `R k` is what is known of the input sample `k` when it is
first read. If an output sample that falls on a later input sample is fit to be that one, and
each sample leaves `P` in the line and puts out `Q`, so does the sweep. -/
theorem sweep_invariant {P Q : α → Prop} {R : ℕ → α → Prop} {frames : ℕ}
    (hahead : input < output → ∀ i, i + (output - input) < frames → ∀ x y, R i x → P y →
      R (i + (output - input)) ((1 - mix) * x + mix * y))
    (hkept : ∀ i < frames, ∀ x y, R i x → P y →
      P ((if output = input then (1 - mix) * x + mix * y else x) + feedback * y))
    (hout : ∀ i < frames, ∀ x y, R i x → P y → Q ((1 - mix) * x + mix * y))
    {n i : ℕ} (hn : i + n = frames) (hl : ∀ y ∈ l.buffer, P y)
    (hm : ∀ k, i ≤ k → k < frames → R k (m (input + k))) :
    (∀ y ∈ (sweep delay feedback mix n (input + i) (output + i) l m).1.buffer, P y) ∧
      ∀ k, i ≤ k → k < frames →
        Q ((sweep delay feedback mix n (input + i) (output + i) l m).2 (output + k)) := by
  induction n generalizing i l m with
  | zero => exact ⟨hl, fun k hik hk => absurd hk (by omega)⟩
  | succ n ih =>
    have hi : i < frames := by omega
    have hx : R i (m (input + i)) := hm i le_rfl hi
    have hy : P (l.ago delay) := hl _ (l.ago_mem delay)
    have hback : (output + i = input + i) = (output = input) :=
      propext Nat.add_right_cancel_iff
    have hline : ∀ y ∈ (l.push (Function.update m (output + i)
        ((1 - mix) * m (input + i) + mix * l.ago delay) (input + i) +
          feedback * l.ago delay)).buffer, P y := by
      intro y hy'
      rcases DelayLine.mem_push hy' with hold | rfl
      · exact hl y hold
      · rw [update_read_back]
        simp only [hback]
        exact hkept i hi _ _ hx hy
    have hunread : ∀ k, i + 1 ≤ k → k < frames → R k (Function.update m (output + i)
        ((1 - mix) * m (input + i) + mix * l.ago delay) (input + k)) := by
      intro k hik hk
      by_cases hfalls : @Eq ℕ (input + k) (output + i)
      · -- the output sample falls on an input sample that is still to be read
        have hlt : @LT.lt ℕ _ input output := by omega
        have hkeq : k = i + (output - input) := by omega
        rw [hfalls, Function.update_self, hkeq]
        exact hahead hlt i (hkeq ▸ hk) _ _ hx hy
      · rw [Function.update_of_ne hfalls]
        exact hm k (Nat.le_of_succ_le hik) hk
    obtain ⟨hcells, houts⟩ := ih (i := i + 1) (by omega) hline hunread
    refine ⟨hcells, fun k hik hk => ?_⟩
    rcases Nat.eq_or_lt_of_le hik with rfl | hlt
    · rw [sweep_head]
      exact hout i hi _ _ hx hy
    · exact houts k hlt hk

end Sweep

variable [Sample α]

/-- A run of the plugin, its input and its output wherever the host has them. -/
structure Pass (α : Type) where
  cycle : Entry.Cycle α
  input : Ptr
  output : Ptr
  cells : Controls Ptr
  plugged : Plugged cycle.ports input output cells

namespace Pass

def frames (p : Pass α) : ℕ := p.cycle.ports.frames

def controls (p : Pass α) : Controls α := p.cells.read p.cycle.memory

/-- The input samples, as they are when the run begins. -/
def samples (p : Pass α) : List α := p.cycle.memory.cells p.input p.frames

/-- The output begins inside the input. -/
def Meets (p : Pass α) : Prop := p.input ≤ p.output ∧ p.output < p.input + p.frames

instance (p : Pass α) : Decidable p.Meets := inferInstanceAs (Decidable (_ ∧ _))

/-- The run on five pointers of a host. -/
def ofHost (memory : Memory α) (input output : Ptr) (cells : Controls Ptr) (frames : ℕ) :
    Pass α where
  cycle :=
    { ports :=
        { ptrs := [input, output, cells.delayMs, cells.feedback, cells.mix]
          descriptors := ports
          frames := frames }
      memory := memory }
  input := input
  output := output
  cells := cells
  plugged :=
    { delayMs := rfl
      feedback := rfl
      mix := rfl
      audioInput := rfl
      audioOutput := rfl }

/-- **Each run of an instance** is such a run, whatever is bound. -/
theorem exists_of_instance {sink : Sink Λ (DelayLogEvent α)}
    (inst : Entry.Instance (plugin sink)) (frames : ℕ) (memory : Memory α) :
    ∃ p : Pass α, p.cycle = ⟨inst.ports frames, memory⟩ := by
  obtain ⟨state, ptrs, hlength⟩ := inst
  match ptrs, hlength with
  | [input, output, delayMs, feedback, mix], hlength =>
    exact ⟨.ofHost memory input output ⟨delayMs, feedback, mix⟩ frames, rfl⟩

/-- The plugin and the memory behind the run. -/
def behind (sink : Sink Λ (DelayLogEvent α)) (p : Pass α) (delay : Delay α Λ)
    (h : delay.WellFormed) : Delay α Λ × Memory α :=
  swept sink delay h p.controls p.frames p.input p.output p.cycle.memory

theorem behind_wellFormed (sink : Sink Λ (DelayLogEvent α)) (p : Pass α) (delay : Delay α Λ)
    (h : delay.WellFormed) : (p.behind sink delay h).1.WellFormed :=
  (sweep _ _ _ _ _ _ _ _).1.writeIndex_lt

/-- **A run** never panics, and computes a sweep. -/
theorem cycle_eq (sink : Sink Λ (DelayLogEvent α)) (p : Pass α) (delay : Delay α Λ)
    (h : delay.WellFormed) :
    (plugin sink).cycle delay p.cycle = .ok (p.behind sink delay h) := by
  show (run sink delay p.frames).exec p.cycle.ports p.cycle.memory = _
  exact run_swept sink p.plugged.delayMs p.plugged.feedback p.plugged.mix p.plugged.audioInput
    p.plugged.audioOutput delay h p.cycle.memory

/-- Runs one after the other never panic. -/
theorem cycles_ok (sink : Sink Λ (DelayLogEvent α)) {delay : Delay α Λ} (h : delay.WellFormed)
    (ps : List (Pass α)) : ∃ rs, (plugin sink).cycles delay (ps.map Pass.cycle) = .ok rs := by
  induction ps generalizing delay with
  | nil => exact ⟨[], rfl⟩
  | cons p ps ih =>
    obtain ⟨rs, hrs⟩ := ih (p.behind_wellFormed sink delay h)
    exact ⟨_, Entry.Plugin.cycles_cons (p.cycle_eq sink delay h) hrs⟩

/-- **Invariant rule for runs**: `sweep_invariant` with the values that `run` clamps. -/
theorem cycle_invariant (sink : Sink Λ (DelayLogEvent α)) {p : Pass α} {P Q : α → Prop}
    {R : ℕ → α → Prop} {feedback mix : α}
    (hfeedback : Sample.clamp p.controls.feedback 0 feedbackCap = feedback)
    (hmix : Sample.clamp p.controls.mix 0 1 = mix)
    (hstart : ∀ k < p.frames, R k (p.cycle.memory (p.input + k)))
    (hahead : p.input < p.output → ∀ i, i + (p.output - p.input) < p.frames → ∀ x y, R i x →
      P y → R (i + (p.output - p.input)) ((1 - mix) * x + mix * y))
    (hkept : ∀ i < p.frames, ∀ x y, R i x → P y →
      P ((if p.output = p.input then (1 - mix) * x + mix * y else x) + feedback * y))
    (hout : ∀ i < p.frames, ∀ x y, R i x → P y → Q ((1 - mix) * x + mix * y))
    {delay : Delay α Λ} (h : delay.WellFormed) (hcells : ∀ y ∈ delay.buffer, P y) :
    ∃ delay' memory, (plugin sink).cycle delay p.cycle = .ok (delay', memory) ∧
      delay'.WellFormed ∧ (∀ y ∈ delay'.buffer, P y) ∧
      ∀ y ∈ memory.cells p.output p.frames, Q y := by
  subst hfeedback hmix
  obtain ⟨hbuffer, houts⟩ := sweep_invariant (p.controls.delay delay)
    (l := delay.line h) (m := p.cycle.memory) hahead hkept hout (Nat.zero_add p.frames) hcells
    fun k _ hk => hstart k hk
  refine ⟨_, _, p.cycle_eq sink delay h, p.behind_wellFormed sink delay h, hbuffer, ?_⟩
  exact Memory.forall_mem_cells.mpr fun k hk => houts k (Nat.zero_le k) hk

end Pass

/-- A run on two buffers. -/
def Turn.pass (t : Turn α) : Pass α where
  cycle := t.cycle
  input := t.input
  output := t.output
  cells := t.cells
  plugged := t.wired.toPlugged

omit [Sample α] in
theorem Turn.not_meets (t : Turn α) : ¬ t.pass.Meets := by
  rintro ⟨hle, hlt⟩
  have hin : t.output ∈ (Slice.mk t.input t.frames).region := ⟨hle, hlt⟩
  have hframes : 0 < t.frames := by
    by_contra hzero
    rw [Nat.eq_zero_of_not_pos hzero] at hin
    exact absurd hin.2 (Nat.not_lt.mpr hin.1)
  exact Set.disjoint_left.mp t.wired.apart hin ⟨le_rfl, Nat.lt_add_of_pos_right hframes⟩

/-- A run on one sample in place. -/
def oneInPlace (sample delayMs feedback mix : α) : Pass α :=
  .ofHost
    (fun ptr =>
      if ptr = 10 then sample else if ptr = 30 then delayMs else if ptr = 31 then feedback
      else mix)
    10 10 ⟨30, 31, 32⟩ 1

end Delay
