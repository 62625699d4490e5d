import TympanLadspa.Examples.DelayPass
import TympanLadspa.Examples.Reset
import TympanLadspa.Port.NaN

/-!
# A control that is not a number

`run` takes three values from the host. NaN as the delay is no delay. NaN as the mix is heard
in its own run only, unless an output sample falls on an input sample: then it is read back,
and comes into the delay line. NaN as the feedback comes through `clamp` into the line by
itself. What has come into the line stays there.
-/

namespace Delay

open Entry (Visit)
open Port (Memory Sample WithNaN)
open Port.WithNaN (nan IsNum isNum_zero isNum_one)

variable {Λ : Type} {sink : Sink Λ (DelayLogEvent WithNaN)} {delay : Delay WithNaN Λ}

/-- No cell of the delay line is NaN. -/
structure Clean (delay : Delay WithNaN Λ) : Prop where
  wellFormed : delay.WellFormed
  cells : ∀ y ∈ delay.buffer, y.IsNum

/-- Ordinary input samples. -/
def Pass.NumSamples (p : Pass WithNaN) : Prop := ∀ x ∈ p.samples, x.IsNum

/-- Ordinary control values. -/
def Pass.NumControls (p : Pass WithNaN) : Prop :=
  p.controls.delayMs.IsNum ∧ p.controls.feedback.IsNum ∧ p.controls.mix.IsNum

/-- The run has no sample, or its feedback is a number, and its mix is one or its output does
not begin inside its input. -/
def Pass.Harmless (p : Pass WithNaN) : Prop :=
  p.frames = 0 ∨ p.controls.feedback.IsNum ∧ (p.controls.mix.IsNum ∨ ¬ p.Meets)

theorem isNum_feedbackCap : (feedbackCap : WithNaN).IsNum := nofun

/-- An output sample of numbers. -/
theorem isNum_out {mix x y : WithNaN} (hmix : mix.IsNum) (hx : x.IsNum) (hy : y.IsNum) :
    ((1 - mix) * x + mix * y).IsNum :=
  WithNaN.isNum_add (WithNaN.isNum_mul (WithNaN.isNum_sub isNum_one hmix) hx)
    (WithNaN.isNum_mul hmix hy)

theorem WellFormed.activate_clean (h : delay.WellFormed) : delay.activate.Clean where
  wellFormed := h.activate
  cells := by
    intro y hy
    rw [List.eq_of_mem_replicate hy]
    exact isNum_zero

/-- **A harmless run** leaves no NaN behind, and with ordinary controls puts none out. -/
theorem Clean.cycle (h : delay.Clean) (sink : Sink Λ (DelayLogEvent WithNaN))
    {p : Pass WithNaN} (hsamples : p.NumSamples) (hharmless : p.Harmless) :
    ∃ delay' memory, (plugin sink).cycle delay p.cycle = .ok (delay', memory) ∧ delay'.Clean ∧
      (p.NumControls → ∀ y ∈ memory.cells p.output p.frames, y.IsNum) := by
  have hfeedback : 0 < p.frames → (Sample.clamp p.controls.feedback 0 feedbackCap).IsNum := by
    intro hpos
    have hnum := hharmless.resolve_left (Nat.ne_of_gt hpos)
    exact WithNaN.isNum_clamp hnum.1 isNum_zero isNum_feedbackCap
  have hmix : p.Meets → (Sample.clamp p.controls.mix 0 1).IsNum := by
    intro hmeets
    have hframes : p.frames ≠ 0 := by
      intro hzero
      have hlt := hmeets.2
      rw [hzero] at hlt
      exact absurd hlt (Nat.not_lt.mpr hmeets.1)
    have hnum := (hharmless.resolve_left hframes).2.resolve_right (not_not_intro hmeets)
    exact WithNaN.isNum_clamp hnum isNum_zero isNum_one
  obtain ⟨delay', memory, hcycle, hwellFormed, hcells, houts⟩ :=
    p.cycle_invariant sink (P := IsNum) (Q := fun y => p.NumControls → y.IsNum)
      (R := fun _ => IsNum) rfl rfl (Memory.forall_mem_cells.mp hsamples)
      (by
        intro hlt i hi x y hx hy
        have hfalls : p.output - p.input < p.frames := lt_of_le_of_lt (Nat.le_add_left _ i) hi
        have hmeets : p.Meets :=
          ⟨Nat.le_of_lt hlt, (Nat.sub_lt_iff_lt_add' (Nat.le_of_lt hlt)).mp hfalls⟩
        exact isNum_out (hmix hmeets) hx hy)
      (by
        intro i hi x y hx hy
        have hpos : 0 < p.frames := Nat.zero_lt_of_lt hi
        refine WithNaN.isNum_add ?_ (WithNaN.isNum_mul (hfeedback hpos) hy)
        split
        · next hsame =>
          have hmeets : p.Meets := by
            unfold Pass.Meets
            rw [hsame]
            exact ⟨le_rfl, Nat.lt_add_of_pos_right hpos⟩
          exact isNum_out (hmix hmeets) hx hy
        · exact hx)
      (by
        intro i _ x y hx hy hcontrols
        exact isNum_out (WithNaN.isNum_clamp hcontrols.2.2 isNum_zero isNum_one) hx hy)
      h.wellFormed h.cells
  exact ⟨delay', memory, hcycle, ⟨hwellFormed, hcells⟩, fun hcontrols y hy =>
    houts y hy hcontrols⟩

section Sweep

variable {steps n input output : ℕ} {feedback mix : WithNaN} {l : DelayLine WithNaN}
  {m : Memory WithNaN}

/-- With NaN as the feedback, the last sample leaves NaN in the line. -/
theorem nan_mem_sweep :
    nan ∈ (sweep steps nan mix (n + 1) input output l m).1.buffer := by
  induction n generalizing input output l m with
  | zero =>
    rw [sweep_succ, WithNaN.nan_mul, WithNaN.add_nan]
    exact l.self_mem_push nan
  | succ n ih =>
    rw [sweep_succ]
    exact ih

/-- With NaN as the mix, the last sample leaves NaN in the line when it is read back from the
output, now or from an earlier sample. -/
theorem nan_mem_sweep_of_meets (hle : input ≤ output)
    (hlast : output < input + (n + 1) ∨ m (input + n) = nan) :
    nan ∈ (sweep steps feedback nan (n + 1) input output l m).1.buffer := by
  induction n generalizing input output l m with
  | zero =>
    have hback : Function.update m output ((1 - nan) * m input + nan * l.ago steps) input =
        nan := by
      rw [WithNaN.nan_mul, WithNaN.add_nan, update_read_back]
      by_cases hsame : output = input
      · exact if_pos hsame
      · rw [if_neg hsame]
        exact hlast.resolve_left fun hlt => hsame (Nat.le_antisymm (Nat.le_of_lt_succ hlt) hle)
    rw [sweep_succ, hback, WithNaN.nan_add]
    exact l.self_mem_push nan
  | succ n ih =>
    rw [sweep_succ]
    refine ih (Nat.succ_le_succ hle) ?_
    rw [WithNaN.nan_mul, WithNaN.add_nan, Nat.succ_add_eq_add_succ input n]
    -- the last input sample is NaN from now on, or the output has still to come to it
    by_cases hhere : input + (n + 1) = output
    · rw [hhere, Function.update_self]
      exact .inr rfl
    · rw [Function.update_of_ne hhere]
      exact hlast.imp_left fun hlt => by omega

end Sweep

/-- **A run that is not harmless** leaves NaN in the line. -/
theorem nan_mem_behind (sink : Sink Λ (DelayLogEvent WithNaN)) (h : delay.WellFormed)
    {p : Pass WithNaN} (hp : ¬ p.Harmless) : nan ∈ (p.behind sink delay h).1.buffer := by
  obtain ⟨hframes, hvalues⟩ := not_or.mp hp
  obtain ⟨n, hn⟩ := Nat.exists_eq_succ_of_ne_zero hframes
  show nan ∈ (sweep (p.controls.delay delay) (Sample.clamp p.controls.feedback 0 feedbackCap)
    (Sample.clamp p.controls.mix 0 1) p.frames p.input p.output (delay.line h)
    p.cycle.memory).1.buffer
  rw [hn]
  by_cases hfeedback : p.controls.feedback = nan
  · rw [hfeedback, WithNaN.clamp_nan]
    exact nan_mem_sweep
  · obtain ⟨hmix, hmeets⟩ := not_or.mp (not_and.mp hvalues hfeedback)
    have hnan : p.controls.mix = nan := not_not.mp hmix
    obtain ⟨hle, hlt⟩ := not_not.mp hmeets
    rw [hn] at hlt
    rw [hnan, WithNaN.clamp_nan]
    exact nan_mem_sweep_of_meets hle (.inl hlt)

/-- Behind a run: no NaN is in the line, and runs with ordinary samples and controls put
none out from here on. -/
def Sane (sink : Sink Λ (DelayLogEvent WithNaN)) (delay : Delay WithNaN Λ) : Prop :=
  (∀ y ∈ delay.buffer, y.IsNum) ∧
    ∀ ps : List (Pass WithNaN), (∀ p ∈ ps, p.NumSamples ∧ p.NumControls) →
      ∃ rs, (plugin sink).cycles delay (ps.map Pass.cycle) = .ok rs ∧
        List.Forall₂ (fun p r => ∀ y ∈ r.2.cells p.output p.frames, y.IsNum) ps rs

theorem Clean.sane (h : delay.Clean) : delay.Sane sink := by
  refine ⟨h.cells, fun ps hps => ?_⟩
  induction ps generalizing delay with
  | nil => exact ⟨[], rfl, .nil⟩
  | cons p ps ih =>
    obtain ⟨hsamples, hcontrols⟩ := hps p List.mem_cons_self
    obtain ⟨delay', memory, hcycle, hclean, houts⟩ :=
      h.cycle sink hsamples (.inr ⟨hcontrols.2.1, .inl hcontrols.2.2⟩)
    obtain ⟨rs, hrs, hrest⟩ := ih hclean fun q hq => hps q (List.mem_cons_of_mem p hq)
    exact ⟨(delay', memory) :: rs, Entry.Plugin.cycles_cons hcycle hrs,
      .cons (houts hcontrols) hrest⟩

theorem cycles_sane_iff (h : delay.Clean) {ps : List (Pass WithNaN)}
    (hps : ∀ p ∈ ps, p.NumSamples) :
    ∃ rs, (plugin sink).cycles delay (ps.map Pass.cycle) = .ok rs ∧
      ((∀ r ∈ rs, r.1.Sane sink) ↔ ∀ p ∈ ps, p.Harmless) := by
  induction ps generalizing delay with
  | nil => exact ⟨[], rfl, iff_of_true (List.forall_mem_nil _) (List.forall_mem_nil _)⟩
  | cons p ps ih =>
    have hsamples := hps p List.mem_cons_self
    by_cases hp : p.Harmless
    · obtain ⟨delay', memory, hcycle, hclean, -⟩ := h.cycle sink hsamples hp
      obtain ⟨rs, hrs, hiff⟩ := ih hclean fun q hq => hps q (List.mem_cons_of_mem p hq)
      refine ⟨_, Entry.Plugin.cycles_cons hcycle hrs, ?_⟩
      rw [List.forall_mem_cons, List.forall_mem_cons, hiff]
      exact and_congr_left fun _ => iff_of_true hclean.sane hp
    · obtain ⟨rs, hrs⟩ := Pass.cycles_ok sink (p.behind_wellFormed sink delay h.wellFormed) ps
      refine ⟨_, Entry.Plugin.cycles_cons (p.cycle_eq sink delay h.wellFormed) hrs,
        iff_of_false (fun hsane => ?_) fun hharmless => hp (hharmless p List.mem_cons_self)⟩
      exact (hsane _ List.mem_cons_self).1 nan (nan_mem_behind sink h.wellFormed hp) rfl

/-- **NaN from the host**: runs with ordinary samples on a delay that has just been activated,
behind any history and with any bindings of an instance, leave no NaN in its line, and none to
be heard in ordinary runs that follow, exactly when each of them has no sample or has a number
as its feedback and, where its output begins inside its input, a number as its mix. -/
theorem nan_free_iff (sink : Sink Λ (DelayLogEvent WithNaN)) {sampleRate : BitVec 32}
    {vs : List (Visit WithNaN)} {delay : Delay WithNaN Λ}
    (hhistory : Transition.run (plugin sink).visit (instantiate sink sampleRate) vs = some delay)
    {ps : List (Pass WithNaN)} (hps : ∀ p ∈ ps, ∀ x ∈ p.samples, x.IsNum) :
    (∀ (inst : Entry.Instance (plugin sink)) (frames : ℕ) (memory : Memory WithNaN),
        ∃ p : Pass WithNaN, p.cycle = ⟨inst.ports frames, memory⟩) ∧
      ∃ rs, (plugin sink).cycles delay.activate (ps.map Pass.cycle) = .ok rs ∧
        ((∀ r ∈ rs, r.1.Sane sink) ↔ ∀ p ∈ ps, p.frames = 0 ∨ p.controls.feedback.IsNum ∧
          (p.controls.mix.IsNum ∨ ¬ (p.input ≤ p.output ∧ p.output < p.input + p.frames))) := by
  have hfits : delay.Fits sampleRate :=
    Transition.run_invariant (fun _ _ _ _ => Fits.visit) hhistory
      (instantiate_fits sink sampleRate)
  exact ⟨Pass.exists_of_instance, cycles_sane_iff hfits.wellFormed.activate_clean hps⟩

/-- A log that takes every event. -/
def acceptNaN : Sink Unit (DelayLogEvent WithNaN) := ⟨fun _ => (), fun _ _ => (true, ())⟩

/-- NaN as the mix does no lasting harm on two buffers. -/
theorem nan_mix_passes :
    (∀ p ∈ [(oneTurn (.num 1) (.num 1) (.num 0) nan).pass,
        oneInPlace (.num 1) nan (.num 0) (.num 1)], ∀ x ∈ p.samples, x.IsNum) ∧
      ∃ rs, (plugin acceptNaN).cycles (instantiate acceptNaN 48000#32).activate
          ([(oneTurn (.num 1) (.num 1) (.num 0) nan).pass,
            oneInPlace (.num 1) nan (.num 0) (.num 1)].map Pass.cycle) = .ok rs ∧
        ∀ r ∈ rs, r.1.Sane acceptNaN := by
  have hsamples : ∀ p ∈ [(oneTurn (.num 1) (.num 1) (.num 0) nan).pass,
      oneInPlace (.num 1) nan (.num 0) (.num 1)], ∀ x ∈ p.samples, x.IsNum := by
    refine List.forall_mem_cons.mpr ⟨fun x hx => ?_, List.forall_mem_singleton.mpr fun x hx => ?_⟩
    all_goals
      obtain rfl : x = .num 1 := List.mem_singleton.mp hx
      exact nofun
  obtain ⟨-, rs, hrs, hiff⟩ := nan_free_iff acceptNaN (Transition.run_nil _) hsamples
  refine ⟨hsamples, rs, hrs, hiff.mpr (List.forall_mem_cons.mpr ⟨.inr ⟨nofun, .inr ?_⟩,
    List.forall_mem_singleton.mpr (.inr ⟨nofun, .inl nofun⟩)⟩)⟩
  exact fun hmeets => absurd hmeets.2 (by decide)

/-- A run on a new delay that leaves NaN in its line. -/
theorem nan_mem_of_new {p : Pass WithNaN} (hp : ¬ p.Harmless) : ∃ delay memory,
    (plugin acceptNaN).cycle (instantiate acceptNaN 48000#32).activate p.cycle =
      .ok (delay, memory) ∧ nan ∈ delay.buffer :=
  ⟨_, _, p.cycle_eq acceptNaN _ (instantiate_wellFormed acceptNaN 48000#32).activate,
    nan_mem_behind acceptNaN _ hp⟩

/-- **Failing runs** on a sample of one: NaN as the feedback, and NaN as the mix in place. -/
theorem nan_feedback_stays :
    ((oneTurn (.num 1) (.num 1) nan (.num 1)).samples = [.num 1] ∧ ∃ delay memory,
      (plugin acceptNaN).cycle (instantiate acceptNaN 48000#32).activate
          (oneTurn (.num 1) (.num 1) nan (.num 1)).cycle = .ok (delay, memory) ∧
        nan ∈ delay.buffer) ∧
    (oneInPlace (.num 1) (.num 1) (.num 0) nan).samples = [.num 1] ∧ ∃ delay memory,
      (plugin acceptNaN).cycle (instantiate acceptNaN 48000#32).activate
          (oneInPlace (.num 1) (.num 1) (.num 0) nan).cycle = .ok (delay, memory) ∧
        nan ∈ delay.buffer := by
  have hfeedback : ¬ (oneTurn (.num 1) (.num 1) nan (.num 1)).pass.Harmless :=
    not_or.mpr ⟨Nat.one_ne_zero, fun h => h.1 rfl⟩
  have hmix : ¬ (oneInPlace (.num 1) (.num 1) (.num 0) nan).Harmless := by
    refine not_or.mpr ⟨Nat.one_ne_zero, fun h => ?_⟩
    exact h.2.elim (fun hnum => hnum rfl) fun hmeets => hmeets ⟨le_rfl, by decide⟩
  exact ⟨⟨rfl, nan_mem_of_new hfeedback⟩, rfl, nan_mem_of_new hmix⟩

end Delay
