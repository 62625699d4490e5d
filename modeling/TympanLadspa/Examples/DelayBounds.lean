import TympanLadspa.Examples.DelayPass
import Mathlib.Algebra.Order.Field.Rat
import Mathlib.Tactic.Linarith
import Mathlib.Tactic.NormNum

/-!
# Bounds on the delay

With a feedback of at most 95 in 100, a line whose cells stay within twenty times the input
goes on to do so, and a mix of such a cell and the input does too. The two clamps of `run`
are what makes this true of any control values, as long as the input samples are the ones of
the host. Where the output begins inside the input, a sample that goes into the line has been
mixed with cells of the line before, and the feedback has to be that much smaller.
-/

namespace Delay

open Entry (Visit)
open Port (Memory Sample)

variable {Λ : Type} {bound x y feedback mix : ℚ} {k : ℕ}

/-- What bounds a sample that has been mixed `k` times with a line within twenty times the
bound. -/
def mixedBound (bound mix : ℚ) (k : ℕ) : ℚ := bound * (20 - 19 * (1 - mix) ^ k)

/-- A sample of the host is within each of the bounds. -/
theorem le_mixedBound (hbound : 0 ≤ bound) (hpos : 0 ≤ mix) (hone : mix ≤ 1) (k : ℕ) :
    bound ≤ mixedBound bound mix k := by
  have hdry : (1 - mix) ^ k ≤ 1 := pow_le_one₀ (sub_nonneg.mpr hone) (sub_le_self 1 hpos)
  calc bound = bound * 1 := (mul_one bound).symm
    _ ≤ mixedBound bound mix k := mul_le_mul_of_nonneg_left (by linarith) hbound

theorem mixedBound_le (hbound : 0 ≤ bound) (hone : mix ≤ 1) (k : ℕ) :
    mixedBound bound mix k ≤ 20 * bound := by
  have hdry : 0 ≤ (1 - mix) ^ k := pow_nonneg (sub_nonneg.mpr hone) k
  calc mixedBound bound mix k
      ≤ bound * 20 := mul_le_mul_of_nonneg_left (by linarith) hbound
    _ = 20 * bound := mul_comm _ _

/-- What comes out has been mixed once more. -/
theorem abs_mix_le (hx : |x| ≤ mixedBound bound mix k) (hy : |y| ≤ 20 * bound) (hpos : 0 ≤ mix)
    (hone : mix ≤ 1) : |(1 - mix) * x + mix * y| ≤ mixedBound bound mix (k + 1) := by
  have hdry : 0 ≤ 1 - mix := sub_nonneg.mpr hone
  calc |(1 - mix) * x + mix * y|
      ≤ |(1 - mix) * x| + |mix * y| := abs_add_le _ _
    _ = (1 - mix) * |x| + mix * |y| := by
        rw [abs_mul, abs_mul, abs_of_nonneg hdry, abs_of_nonneg hpos]
    _ ≤ (1 - mix) * mixedBound bound mix k + mix * (20 * bound) :=
        add_le_add (mul_le_mul_of_nonneg_left hx hdry) (mul_le_mul_of_nonneg_left hy hpos)
    _ = mixedBound bound mix (k + 1) := by
        rw [mixedBound, mixedBound, pow_succ]
        ring

/-- What goes into the line. -/
theorem abs_kept_le (hx : |x| ≤ mixedBound bound mix k) (hy : |y| ≤ 20 * bound)
    (hpos : 0 ≤ feedback) (hcap : feedback ≤ 95 / 100 * (1 - mix) ^ k) :
    |x + feedback * y| ≤ 20 * bound := by
  have hbound : 0 ≤ 20 * bound := (abs_nonneg y).trans hy
  calc |x + feedback * y|
      ≤ |x| + |feedback * y| := abs_add_le x _
    _ = |x| + feedback * |y| := by rw [abs_mul, abs_of_nonneg hpos]
    _ ≤ mixedBound bound mix k + feedback * (20 * bound) :=
        add_le_add hx (mul_le_mul_of_nonneg_left hy hpos)
    _ ≤ mixedBound bound mix k + 95 / 100 * (1 - mix) ^ k * (20 * bound) :=
        add_le_add le_rfl (mul_le_mul_of_nonneg_right hcap hbound)
    _ = 20 * bound := by
        rw [mixedBound]
        ring

/-- How often a sample has at most come out of the run by the time it goes into the line: never
when the output does not begin inside the input, once in place, and otherwise once for each
time that the distance of the two fits into the block. -/
def Pass.rounds (p : Pass ℚ) : ℕ :=
  if p.output = p.input then min p.frames 1
  else if p.output < p.input then 0
  else (p.frames - 1) / (p.output - p.input)

/-- A run whose input samples are within the bound, with a feedback that its buffers allow. -/
structure Pass.Quiet (bound : ℚ) (p : Pass ℚ) : Prop where
  samples : ∀ x ∈ p.samples, |x| ≤ bound
  stable : Sample.clamp p.controls.feedback 0 feedbackCap ≤
    95 / 100 * (1 - Sample.clamp p.controls.mix 0 1) ^ p.rounds

/-- A call that is no run, or a run as above. -/
def Quiet (bound : ℚ) : Visit ℚ → Prop
  | .run c => ∃ p : Pass ℚ, p.cycle = c ∧ p.Quiet bound
  | _ => True

/-- No sample has come out more often than the last one. -/
theorem Pass.div_le_rounds {p : Pass ℚ} (hne : p.output ≠ p.input) {i : ℕ} (hi : i < p.frames) :
    i / (p.output - p.input) ≤ p.rounds := by
  rw [rounds, if_neg hne]
  by_cases hlt : p.output < p.input
  · rw [if_pos hlt, Nat.sub_eq_zero_of_le (Nat.le_of_lt hlt), Nat.div_zero]
  · rw [if_neg hlt]
    exact Nat.div_le_div_right (Nat.le_pred_of_lt hi)

/-- On two buffers no sample is read back. -/
theorem Turn.rounds_eq (t : Turn ℚ) : t.pass.rounds = 0 := by
  have hapart := t.not_meets
  unfold Pass.Meets at hapart
  rw [Pass.rounds]
  by_cases hsame : t.pass.output = t.pass.input
  · rw [if_pos hsame]
    rw [hsame, not_and, Nat.lt_add_right_iff_pos] at hapart
    rw [Nat.eq_zero_of_not_pos (hapart le_rfl), Nat.zero_min]
  · rw [if_neg hsame]
    by_cases hlt : t.pass.output < t.pass.input
    · exact if_pos hlt
    · rw [if_neg hlt]
      have hfar := Nat.le_of_not_lt (not_and.mp hapart (Nat.le_of_not_lt hlt))
      have hfits : t.pass.frames ≤ t.pass.output - t.pass.input := Nat.le_sub_of_add_le' hfar
      rcases Nat.eq_zero_or_pos t.pass.frames with hzero | hpos
      · rw [hzero]
        exact Nat.zero_div _
      · exact Nat.div_eq_of_lt (Nat.sub_one_lt_of_le hpos hfits)

/-- A run on two buffers is quiet with any controls. -/
theorem Turn.quiet {t : Turn ℚ} (ht : ∀ x ∈ t.samples, |x| ≤ bound) :
    Quiet bound (.run t.cycle) := by
  refine ⟨t.pass, rfl, ht, ?_⟩
  rw [t.rounds_eq, pow_zero, mul_one]
  exact (Port.clamp_mem (show (0 : ℚ) ≤ feedbackCap from by norm_num [feedbackCap, Sample.ofRat])
    t.controls.feedback).2

/-- A delay whose cells are within twenty times the bound. -/
structure Bounded (bound : ℚ) (delay : Delay ℚ Λ) : Prop where
  wellFormed : delay.WellFormed
  cells : ∀ y ∈ delay.buffer, |y| ≤ 20 * bound

theorem Bounded.of_zeros {delay : Delay ℚ Λ} (hbound : 0 ≤ bound) (h : delay.WellFormed)
    {len : ℕ} (hzeros : delay.buffer = List.replicate len 0) : delay.Bounded bound where
  wellFormed := h
  cells := by
    intro y hy
    rw [hzeros] at hy
    rw [List.eq_of_mem_replicate hy, abs_zero]
    exact mul_nonneg (by norm_num) hbound

/-- **One run** keeps the bound, and its output samples are within it. -/
theorem Bounded.cycle {delay : Delay ℚ Λ} (h : delay.Bounded bound) (hbound : 0 ≤ bound)
    (sink : Sink Λ (DelayLogEvent ℚ)) {p : Pass ℚ} (hp : p.Quiet bound) :
    ∃ delay' memory, (plugin sink).cycle delay p.cycle = .ok (delay', memory) ∧
      delay'.Bounded bound ∧ ∀ y ∈ memory.cells p.output p.frames, |y| ≤ 20 * bound := by
  obtain ⟨hfeedback, -⟩ :=
    Port.clamp_mem (show (0 : ℚ) ≤ feedbackCap from by norm_num [feedbackCap, Sample.ofRat])
      p.controls.feedback
  obtain ⟨hpos, hone⟩ := Port.clamp_mem (zero_le_one (α := ℚ)) p.controls.mix
  have hstable := hp.stable
  have hsamples := Memory.forall_mem_cells.mp hp.samples
  generalize hclamp : Sample.clamp p.controls.feedback 0 feedbackCap = feedback
    at hfeedback hstable
  generalize hmix : Sample.clamp p.controls.mix 0 1 = mix at hpos hone hstable
  -- sample `i` has been mixed as often as the distance fits into `i`
  obtain ⟨delay', memory, hcycle, hwellFormed, hcells, houts⟩ :=
    p.cycle_invariant sink (P := fun y => |y| ≤ 20 * bound) (Q := fun y => |y| ≤ 20 * bound)
      (R := fun i x => |x| ≤ mixedBound bound mix (i / (p.output - p.input))) hclamp hmix
      (fun i hi => (hsamples i hi).trans (le_mixedBound hbound hpos hone _))
      (by
        intro hlt i _ x y hx hy
        rw [Nat.add_div_right i (Nat.sub_pos_of_lt hlt)]
        exact abs_mix_le hx hy hpos hone)
      (by
        intro i hi x y hx hy
        by_cases hsame : p.output = p.input
        · rw [if_pos hsame]
          rw [hsame, Nat.sub_self, Nat.div_zero] at hx
          rw [Pass.rounds, if_pos hsame, Nat.min_eq_right (Nat.succ_le_of_lt
            (Nat.zero_lt_of_lt hi))] at hstable
          exact abs_kept_le (abs_mix_le hx hy hpos hone) hy hfeedback hstable
        · rw [if_neg hsame]
          have hpow : (1 - mix) ^ p.rounds ≤ (1 - mix) ^ (i / (p.output - p.input)) :=
            pow_le_pow_of_le_one (sub_nonneg.mpr hone) (sub_le_self 1 hpos)
              (Pass.div_le_rounds hsame hi)
          exact abs_kept_le hx hy hfeedback (hstable.trans
            (mul_le_mul_of_nonneg_left hpow (by norm_num))))
      (fun i _ x y hx hy =>
        (abs_mix_le hx hy hpos hone).trans (mixedBound_le hbound hone _))
      h.wellFormed h.cells
  exact ⟨delay', memory, hcycle, ⟨hwellFormed, hcells⟩, houts⟩

/-- **One call** keeps the bound. -/
theorem Bounded.visit {delay : Delay ℚ Λ} (h : delay.Bounded bound) (hbound : 0 ≤ bound)
    (sink : Sink Λ (DelayLogEvent ℚ)) {v : Visit ℚ} (hv : Quiet bound v) :
    ∃ delay', (plugin sink).visit delay v = some delay' ∧ delay'.Bounded bound := by
  cases v with
  | activate => exact ⟨delay.activate, rfl, .of_zeros hbound h.wellFormed.activate rfl⟩
  | run c =>
    obtain ⟨p, rfl, hp⟩ := hv
    obtain ⟨delay', memory, hcycle, hdelay', -⟩ := h.cycle hbound sink hp
    exact ⟨delay', Entry.Plugin.visit_run.mpr ⟨memory, hcycle⟩, hdelay'⟩
  | deactivate => exact ⟨delay, rfl, h⟩

theorem Bounded.visits {delay : Delay ℚ Λ} (h : delay.Bounded bound) (hbound : 0 ≤ bound)
    (sink : Sink Λ (DelayLogEvent ℚ)) {vs : List (Visit ℚ)} (hvs : ∀ v ∈ vs, Quiet bound v) :
    ∃ delay', Transition.run (plugin sink).visit delay vs = some delay' ∧
      delay'.Bounded bound := by
  induction vs generalizing delay with
  | nil => exact ⟨delay, rfl, h⟩
  | cons v vs ih =>
    obtain ⟨next, hnext, hbounded⟩ := h.visit hbound sink (hvs v List.mem_cons_self)
    obtain ⟨delay', hrun, hlast⟩ := ih hbounded fun u hu => hvs u (List.mem_cons_of_mem v hu)
    exact ⟨delay', Transition.run_cons_eq_some.mpr ⟨next, hnext, hrun⟩, hlast⟩

/-- **Bounded input gives bounded output**, on two buffers whatever the controls, and on any
other buffers with a feedback that allows for the samples that are read back: behind any such
calls with input samples within a bound, each cell of the delay line and each sample that the
next run puts out is within twenty times the bound. What an instance has bound makes no
difference to this: each of its runs is one of these. -/
theorem bounded_of_quiet (hbound : 0 ≤ bound) (sink : Sink Λ (DelayLogEvent ℚ))
    (sampleRate : BitVec 32) {vs : List (Visit ℚ)} (hvs : ∀ v ∈ vs, Quiet bound v) :
    (∀ (inst : Entry.Instance (plugin sink)) (frames : ℕ) (memory : Memory ℚ),
        ∃ p : Pass ℚ, p.cycle = ⟨inst.ports frames, memory⟩) ∧
      ∃ delay, Transition.run (plugin sink).visit (instantiate sink sampleRate) vs =
          some delay ∧
        (∀ y ∈ delay.buffer, |y| ≤ 20 * bound) ∧
        ∀ p : Pass ℚ, p.Quiet bound →
          ∃ delay' memory, (plugin sink).cycle delay p.cycle = .ok (delay', memory) ∧
            (∀ y ∈ delay'.buffer, |y| ≤ 20 * bound) ∧
            ∀ y ∈ memory.cells p.output p.frames, |y| ≤ 20 * bound := by
  obtain ⟨delay, hrun, hdelay⟩ :=
    (Bounded.of_zeros hbound (instantiate_wellFormed sink sampleRate) rfl).visits hbound sink hvs
  refine ⟨Pass.exists_of_instance, delay, hrun, hdelay.cells, fun p hp => ?_⟩
  obtain ⟨delay', memory, hcycle, hdelay', houts⟩ := hdelay.cycle hbound sink hp
  exact ⟨delay', memory, hcycle, hdelay'.cells, houts⟩

/-- A sample of a half on two buffers, with controls far out of their ranges, and one in place
with a feedback of a quarter. -/
theorem bounded_of_half :
    (0 : ℚ) ≤ 1 ∧
      (∀ v ∈ [Visit.run (oneTurn (1 / 2) 7 (-3) 100).cycle, .activate,
        .run (oneInPlace (1 / 2) 7 (1 / 4) (1 / 2)).cycle], Quiet 1 v) ∧
      ∃ delay, Transition.run (plugin acceptAll).visit (instantiate acceptAll 48000#32)
          [.run (oneTurn (1 / 2) 7 (-3) 100).cycle, .activate,
            .run (oneInPlace (1 / 2) 7 (1 / 4) (1 / 2)).cycle] = some delay ∧
        ∀ y ∈ delay.buffer, |y| ≤ 20 * 1 := by
  have hsample : ∀ x ∈ [(1 / 2 : ℚ)], |x| ≤ 1 := by
    refine List.forall_mem_singleton.mpr ?_
    norm_num [abs_le]
  have hquiet : ∀ v ∈ [Visit.run (oneTurn (1 / 2) 7 (-3) 100).cycle, .activate,
      .run (oneInPlace (1 / 2) 7 (1 / 4) (1 / 2)).cycle], Quiet 1 v := by
    refine List.forall_mem_cons.mpr ⟨Turn.quiet hsample, List.forall_mem_cons.mpr
      ⟨trivial, List.forall_mem_singleton.mpr ⟨oneInPlace (1 / 2) 7 (1 / 4) (1 / 2), rfl,
        hsample, ?_⟩⟩⟩
    decide +kernel
  obtain ⟨-, delay, hrun, hcells, -⟩ :=
    bounded_of_quiet zero_le_one acceptAll 48000#32 hquiet
  exact ⟨zero_le_one, hquiet, delay, hrun, hcells⟩

/-- Eight samples of one in place, with all the feedback and half the mix. -/
def loudInPlace : Pass ℚ :=
  .ofHost
    (fun ptr => if ptr = 30 then 1000 else if ptr = 31 then 1 else if ptr = 32 then 1 / 2 else 1)
    10 10 ⟨30, 31, 32⟩ 8

/-- **A failing run**: into a new delay of three slots, at an offset of one. -/
theorem loud_in_place :
    (∀ x ∈ loudInPlace.samples, |x| ≤ 1) ∧ ∃ delay memory,
      (plugin acceptAll).cycle (instantiate acceptAll 1#32) loudInPlace.cycle =
        .ok (delay, memory) ∧ ∃ y ∈ delay.buffer, 20 * 1 < |y| := by
  refine ⟨?_, _, _, loudInPlace.cycle_eq acceptAll _ (instantiate_wellFormed acceptAll 1#32), ?_⟩
  · decide +kernel
  · decide +kernel

end Delay
