import TympanLadspa.Examples.DelayBounds
import TympanLadspa.Examples.DelayEcho
import TympanLadspa.Examples.Reset

/-!
# The tail of the delay

What is heard once the input has fallen silent. Whatever the host then does with the controls,
each round of the line takes at least a twentieth away, since the two clamps of `run` leave a
feedback of at most 95 in 100 and a mix of at most one.
-/

namespace Delay

open DelayLine (Fading)
open Entry (Visit)
open Port (Sample)

variable {Λ : Type} {bound : ℚ}

/-- A silent sample with parameters as `run` clamps them, for a line of `len` slots. -/
structure Tap.Silent (len : ℕ) (tap : Tap ℚ) : Prop where
  sample : tap.sample = 0
  steps_pos : 1 ≤ tap.steps
  steps_le : tap.steps ≤ len
  feedback_nonneg : 0 ≤ tap.feedback
  feedback_le : tap.feedback ≤ 95 / 100
  mix_nonneg : 0 ≤ tap.mix
  mix_le : tap.mix ≤ 1

theorem Tap.Silent.abs_kept {len : ℕ} {tap : Tap ℚ} (h : tap.Silent len) (y : ℚ) :
    |tap.kept y| ≤ 95 / 100 * |y| := by
  rw [Tap.kept, h.sample, zero_add, abs_mul, abs_of_nonneg h.feedback_nonneg]
  exact mul_le_mul_of_nonneg_right h.feedback_le (abs_nonneg y)

theorem Tap.Silent.abs_out {len : ℕ} {tap : Tap ℚ} (h : tap.Silent len) (y : ℚ) :
    |tap.out y| ≤ |y| := by
  rw [Tap.out, h.sample, mul_zero, zero_add, abs_mul, abs_of_nonneg h.mix_nonneg]
  exact mul_le_of_le_one_left (abs_nonneg y) h.mix_le

/-- **A stream of silence** fades out. -/
theorem stream_fading {l : DelayLine ℚ} {n : ℕ} (h : l.Fading (95 / 100) bound n)
    (hbound : 0 ≤ bound) {taps : List (Tap ℚ)} (htaps : ∀ tap ∈ taps, tap.Silent l.len) :
    ∀ k y, (stream l taps).1[k]? = some y → |y| ≤ (95 / 100) ^ ((n + k) / l.len) * bound := by
  have hpos : (0 : ℚ) ≤ 95 / 100 := by norm_num
  have hone : (95 / 100 : ℚ) ≤ 1 := by norm_num
  induction taps generalizing l n with
  | nil =>
    intro k y hy
    cases hy
  | cons tap taps ih =>
    intro k y hy
    have htap := htaps tap List.mem_cons_self
    have hago := h.ago_le hpos hone hbound htap.steps_pos htap.steps_le
    rw [stream_cons] at hy
    cases k with
    | zero =>
      obtain rfl := Option.some.inj hy
      exact (htap.abs_out _).trans hago
    | succ k =>
      have hnext := h.push hpos hone hbound htap.steps_pos htap.steps_le (htap.abs_kept _)
      have hrest := ih hnext (fun t ht => by
        rw [DelayLine.len_push]
        exact htaps t (List.mem_cons_of_mem tap ht)) k y hy
      rw [DelayLine.len_push, Nat.add_right_comm] at hrest
      exact hrest

/-- Silence as the stream gets it, with the steps that are read back. -/
theorem silent_of_mem_signal {len : ℕ} (hlen : 0 < len) {sampleRate : BitVec 32}
    {ts : List (Turn ℚ)} (hts : ∀ t ∈ ts, ∀ x ∈ t.samples, x = 0) :
    ∀ tap ∈ (signal len (ts.map (Turn.request sampleRate))).map (Tap.around len),
      tap.Silent len := by
  intro tap htap
  obtain ⟨tap, hmem, rfl⟩ := List.mem_map.mp htap
  obtain ⟨r, hr, hmem⟩ := List.mem_flatMap.mp hmem
  obtain ⟨t, ht, rfl⟩ := List.mem_map.mp hr
  rw [Turn.taps_request] at hmem
  obtain ⟨x, hx, rfl⟩ := List.mem_map.mp hmem
  obtain ⟨hfeedback, hcap⟩ :=
    Port.clamp_mem (show (0 : ℚ) ≤ feedbackCap from by norm_num [feedbackCap, Sample.ofRat])
      t.controls.feedback
  obtain ⟨hmix, hone⟩ := Port.clamp_mem (zero_le_one (α := ℚ)) t.controls.mix
  exact
    { sample := hts t ht x hx
      steps_pos := stepsBack_pos hlen _
      steps_le := stepsBack_le ((Nat.min_le_right _ _).trans (Nat.sub_le _ _))
      feedback_nonneg := hfeedback
      feedback_le := hcap
      mix_nonneg := hmix
      mix_le := hone }

/-- **The tail fades.** Behind any calls whose input samples are within a bound and whose
feedback their buffers allow, silence on two buffers makes the output fall by a factor of 95 in
100 for each length of the line that goes by, whatever the sizes of the runs and whatever their
controls. -/
theorem tail_fades (hbound : 0 ≤ bound) (sink : Sink Λ (DelayLogEvent ℚ))
    (sampleRate : BitVec 32) {vs : List (Visit ℚ)} (hvs : ∀ v ∈ vs, Quiet bound v)
    {ts : List (Turn ℚ)} (hts : ∀ t ∈ ts, ∀ x ∈ t.samples, x = 0) :
    ∃ delay rs, Transition.run (plugin sink).visit (instantiate sink sampleRate) vs =
        some delay ∧
      (plugin sink).cycles delay (ts.map Turn.cycle) = .ok rs ∧
      ∀ k y, (heard ts rs)[k]? = some y →
        |y| ≤ (95 / 100) ^ (k / maxSamples ℚ sampleRate) * (20 * bound) := by
  obtain ⟨delay, hrun, hbounded⟩ :=
    (Bounded.of_zeros hbound (instantiate_wellFormed sink sampleRate) rfl).visits hbound sink hvs
  have hfits : delay.Fits sampleRate :=
    Transition.run_invariant (fun _ _ _ _ => Fits.visit) hrun (instantiate_fits sink sampleRate)
  obtain ⟨rs, hrs, hheard⟩ := exists_heard sink ts hfits.wellFormed
  refine ⟨delay, rs, hrun, hrs, fun k y hy => ?_⟩
  have hlen : (delay.line hfits.wellFormed).len = maxSamples ℚ sampleRate := hfits.length
  have hpos : 0 < (delay.line hfits.wellFormed).len := DelayLine.len_pos _
  rw [hheard, hfits.length, ← hlen, ← stream_around] at hy
  have hfading := stream_fading (DelayLine.fading_of_cells hbounded.cells)
    (mul_nonneg (by norm_num) hbound) (silent_of_mem_signal hpos hts) k y hy
  rw [Nat.zero_add, hlen] at hfading
  exact hfading

/-- A sample of one at a rate of one, and silence behind it. -/
theorem one_fades :
    ∃ delay rs, Transition.run (plugin acceptAll).visit (instantiate acceptAll 1#32)
        [.run (oneTurn 1 1000 7 1).cycle] = some delay ∧
      (plugin acceptAll).cycles delay ([oneTurn 0 1000 7 1, oneTurn 0 2000 7 1].map Turn.cycle) =
        .ok rs ∧
      ∀ k y, (heard [oneTurn 0 1000 7 1, oneTurn 0 2000 7 1] rs)[k]? = some y →
        |y| ≤ (95 / 100) ^ (k / maxSamples ℚ 1#32) * (20 * 1) := by
  refine tail_fades zero_le_one acceptAll 1#32 ?_ ?_
  · refine List.forall_mem_singleton.mpr (Turn.quiet fun x hx => ?_)
    obtain rfl : x = 1 := List.mem_singleton.mp hx
    rw [abs_one]
  · refine List.forall_mem_cons.mpr ⟨?_, List.forall_mem_singleton.mpr ?_⟩
    · intro x hx
      exact List.mem_singleton.mp hx
    · intro x hx
      exact List.mem_singleton.mp hx

end Delay
