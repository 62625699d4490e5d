import TympanLadspa.Examples.DelayRate
import TympanLadspa.Examples.Reset
import Mathlib.Algebra.Order.Round

/-!
# The offset of a run

A delay time in milliseconds is a whole number of samples and a rest. The README rounds it to
the nearest offset; `run` converts with `as usize`, which cuts the rest off.
-/

/-- **Cutting off is rounding** exactly below one half. -/
theorem Int.floor_eq_round_iff {α : Type*} [Field α] [LinearOrder α] [IsStrictOrderedRing α]
    [FloorRing α] {x : α} : ⌊x⌋ = round x ↔ Int.fract x < 1 / 2 := by
  have hhalf : Int.fract x < 1 / 2 ↔ 2 * Int.fract x < 1 := by
    rw [lt_div_iff₀' two_pos]
  rw [hhalf, round]
  by_cases hlt : 2 * Int.fract x < 1
  · rw [if_pos hlt]
    exact iff_of_true rfl hlt
  · rw [if_neg hlt]
    refine iff_of_false (fun heq => hlt ?_) hlt
    -- a number with the same floor and ceiling has no fraction
    have hle : x ≤ ⌊x⌋ := heq ▸ Int.le_ceil x
    have hzero : Int.fract x = 0 := le_antisymm (sub_nonpos.mpr hle) (Int.fract_nonneg x)
    rw [hzero, mul_zero]
    exact one_pos

namespace Delay

open Port (Sample)

variable {Λ : Type} {sink : Sink Λ (DelayLogEvent ℚ)} {sampleRate : BitVec 32}

/-- The delay in samples, with its fraction. -/
def exactSamples (delayMs : ℚ) (sampleRate : BitVec 32) : ℚ :=
  delayMs * (1 / 1000) * sampleRate.toNat

/-- A rate that a host sends in 32 bits comes out as it is. -/
theorem setWidth_setWidth (sampleRate : BitVec 32) :
    (sampleRate.setWidth 64).setWidth 32 = sampleRate ∧
      (sampleRate.setWidth 64).toNat = sampleRate.toNat := by
  have hlt := sampleRate.isLt
  have hwide : (sampleRate.setWidth 64).toNat = sampleRate.toNat := by
    rw [BitVec.toNat_setWidth]
    exact Nat.mod_eq_of_lt (by omega)
  refine ⟨?_, hwide⟩
  apply BitVec.eq_of_toNat_eq
  rw [Entry.toNat_narrowed (by omega), hwide]

/-- The offset of a run on a delay that was made for a rate: a delay in range, cut off. -/
theorem Fits.delay_eq_floor {delay : Delay ℚ Λ} (h : delay.Fits sampleRate) {c : Controls ℚ}
    (hlo : 0 ≤ c.delayMs) (hhi : c.delayMs ≤ maxDelayMs) :
    (c.delay delay : ℤ) = ⌊exactSamples c.delayMs sampleRate⌋ := by
  obtain ⟨hnarrow, hwide⟩ := setWidth_setWidth sampleRate
  have hsamples : delaySamples c.delayMs sampleRate =
      samplesAt (sampleRate.setWidth 64) c.delayMs := by
    have hlt : (sampleRate.setWidth 64).toNat < 2 ^ 32 := hwide ▸ sampleRate.isLt
    rw [← delaySamples_eq hlt hlo hhi, hnarrow]
  -- the buffer is long enough for every delay in range
  have hfits : samplesAt (sampleRate.setWidth 64) c.delayMs ≤ delay.buffer.length - 1 := by
    rw [h.length, maxSamples_eq, ← hwide]
    exact samplesAt_le _ hhi
  have hexact : c.delayMs * (sampleRate.setWidth 64).toNat / 1000 =
      exactSamples c.delayMs sampleRate := by
    rw [exactSamples, hwide]
    ring
  have hnonneg : 0 ≤ exactSamples c.delayMs sampleRate :=
    mul_nonneg (mul_nonneg hlo (by norm_num)) (Nat.cast_nonneg _)
  rw [Controls.delay, h.rate, hsamples, Nat.min_eq_left hfits, samplesAt, hexact]
  exact Int.toNat_of_nonneg (Int.floor_nonneg.mpr hnonneg)

/-- The loop of `apply_delay` in a run, with the offset that it is given. -/
theorem Turn.cycle_zipSamples {α : Type} [Sample α] (sink : Sink Λ (DelayLogEvent α))
    (t : Turn α) (delay : Delay α Λ) (h : delay.WellFormed) :
    ∃ delay' memory, (plugin sink).cycle delay t.cycle = .ok (delay', memory) ∧
      zipSamples delay.buffer.length (t.controls.delay delay)
          (Sample.clamp t.controls.feedback 0 feedbackCap) (Sample.clamp t.controls.mix 0 1)
          t.samples (t.cycle.memory.cells t.output t.frames) delay.buffer delay.writeIndex =
        .ok (memory.cells t.output t.frames, delay'.buffer, delay'.writeIndex) := by
  refine ⟨_, _, t.cycle_eq sink delay h, ?_⟩
  have hcall := t.applyDelay_eq sink delay h
  rw [Request.applyDelay, if_neg (Nat.ne_zero_of_lt h)] at hcall
  rw [t.cells_output sink delay h]
  exact hcall

/-- **The offset against the README**: behind any history, a run hands `apply_delay` an offset
that is the rounded number of samples exactly when less than half a sample is cut off. -/
theorem offset_rounded_iff (sink : Sink Λ (DelayLogEvent ℚ)) (sampleRate : BitVec 32)
    {vs : List (Entry.Visit ℚ)} {delay : Delay ℚ Λ}
    (hrun : Transition.run (plugin sink).visit (instantiate sink sampleRate) vs = some delay)
    {c : Controls ℚ} (hlo : 0 ≤ c.delayMs) (hhi : c.delayMs ≤ 2000) :
    (∀ t : Turn ℚ, t.controls = c → ∃ delay' memory,
      (plugin sink).cycle delay t.cycle = .ok (delay', memory) ∧
        zipSamples delay.buffer.length (c.delay delay) (Sample.clamp c.feedback 0 feedbackCap)
            (Sample.clamp c.mix 0 1) t.samples (t.cycle.memory.cells t.output t.frames)
            delay.buffer delay.writeIndex =
          .ok (memory.cells t.output t.frames, delay'.buffer, delay'.writeIndex)) ∧
      ((c.delay delay : ℤ) = round (c.delayMs * (1 / 1000) * sampleRate.toNat) ↔
        Int.fract (c.delayMs * (1 / 1000) * sampleRate.toNat) < 1 / 2) := by
  have hfits : delay.Fits sampleRate :=
    Transition.run_invariant (fun _ _ _ _ => Fits.visit) hrun (instantiate_fits sink sampleRate)
  constructor
  · rintro t rfl
    exact t.cycle_zipSamples sink delay hfits.wellFormed
  · rw [hfits.delay_eq_floor hlo hhi]
    exact Int.floor_eq_round_iff

/-- A millisecond at 48000 is a whole number of samples. -/
theorem offset_rounded_at_one :
    (0 : ℚ) ≤ 1 ∧ (1 : ℚ) ≤ 2000 ∧
      (((⟨1, 0, 1⟩ : Controls ℚ).delay (instantiate acceptAll 48000#32) : ℤ) =
          round (1 * (1 / 1000) * (48000#32).toNat : ℚ) ↔
        Int.fract (1 * (1 / 1000) * (48000#32).toNat : ℚ) < 1 / 2) := by
  have hlo : (0 : ℚ) ≤ 1 := by norm_num
  have hhi : (1 : ℚ) ≤ 2000 := by norm_num
  exact ⟨hlo, hhi, (offset_rounded_iff acceptAll 48000#32 (Transition.run_nil _) hlo hhi).2⟩

/-- **A failing delay time**: 0.99 ms at 48000 is 47.52 samples, and comes out as 47. -/
theorem offset_cut_off :
    (0 : ℚ) ≤ 99 / 100 ∧ (99 / 100 : ℚ) ≤ 2000 ∧
      ((⟨99 / 100, 0, 1⟩ : Controls ℚ).delay (instantiate acceptAll 48000#32) : ℤ) = 47 ∧
      round (99 / 100 * (1 / 1000) * (48000#32).toNat : ℚ) = 48 := by
  have hlo : (0 : ℚ) ≤ 99 / 100 := by norm_num
  have hhi : (99 / 100 : ℚ) ≤ 2000 := by norm_num
  refine ⟨hlo, hhi, ?_, ?_⟩
  · rw [(instantiate_fits acceptAll 48000#32).delay_eq_floor hlo hhi, Int.floor_eq_iff]
    norm_num [exactSamples]
  · rw [round_eq, Int.floor_eq_iff]
    norm_num

end Delay
