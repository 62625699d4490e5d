import TympanLadspa.Examples.DelayInPlace
import Mathlib.Data.Rat.Floor
import Mathlib.Tactic.Linarith
import Mathlib.Tactic.NormNum

/-!
# The sample rate of a host

`instantiate_shim` gets the rate as a `c_ulong` and hands a `u32` on to the plugin. What
that does to a plugin in general, and to the delay plugin, whose buffer is as long as its
rate says.
-/

namespace Entry

variable {α σ : Type} {P : Plugin α σ}

/-- The instance was made for this rate. -/
def Instance.BuiltFor (inst : Instance P) (sampleRate : BitVec 64) : Prop :=
  ∃ (rate : BitVec 32) (plugin : σ), rate.toNat = sampleRate.toNat ∧
    P.instantiate rate = .ok plugin ∧ inst = .new P plugin

/-- A handle that is not NULL is that of an instance for the narrowed rate. -/
theorem instantiateShim_cases {w w' : World P} {sampleRate : BitVec 64} {address handle : Handle}
    (h : w.instantiateShim sampleRate address = (handle, w')) (hnull : handle ≠ 0) :
    ∃ plugin, P.instantiate (sampleRate.setWidth 32) = .ok plugin ∧
      w'.heap handle = some (.new P plugin) := by
  unfold World.instantiateShim at h
  cases hplugin : P.instantiate (sampleRate.setWidth 32) with
  | error e =>
    rw [hplugin] at h
    obtain ⟨rfl, -⟩ := Prod.mk.inj h
    exact absurd rfl hnull
  | ok plugin =>
    rw [hplugin] at h
    obtain ⟨rfl, rfl⟩ := Prod.mk.inj h
    refine ⟨plugin, rfl, ?_⟩
    show Function.update w.heap address _ address = _
    rw [Function.update_self]

theorem toNat_narrowed {sampleRate : BitVec 64} (h : sampleRate.toNat < 2 ^ 32) :
    (sampleRate.setWidth 32).toNat = sampleRate.toNat := by
  rw [BitVec.toNat_setWidth]
  exact Nat.mod_eq_of_lt h

theorem toNat_narrowed_lt {sampleRate : BitVec 64} (h : 2 ^ 32 ≤ sampleRate.toNat) :
    (sampleRate.setWidth 32).toNat < sampleRate.toNat :=
  lt_of_lt_of_le (sampleRate.setWidth 32).isLt h

/-- **Any plugin**: it is made for the host's rate exactly when that fits. -/
theorem builtFor_new_iff {sampleRate : BitVec 64} {plugin : σ}
    (h : P.instantiate (sampleRate.setWidth 32) = .ok plugin) :
    (Instance.new P plugin).BuiltFor sampleRate ↔ sampleRate.toNat < 2 ^ 32 := by
  constructor
  · rintro ⟨rate, -, hrate, -, -⟩
    rw [← hrate]
    exact rate.isLt
  · intro hlt
    exact ⟨sampleRate.setWidth 32, plugin, toNat_narrowed hlt, h, rfl⟩

end Entry

namespace Delay

open Port (Sample)

variable {Λ : Type} {sink : Sink Λ (DelayLogEvent ℚ)}

/-- Two slots for each unit of the rate, and the one written next. -/
theorem maxSamples_eq (rate : BitVec 32) : maxSamples ℚ rate = 2 * rate.toNat + 1 := by
  have hsize : (maxDelayMs / Sample.ofRat 1000 * Sample.ofRat rate.toNat : ℚ) =
      ((2 * rate.toNat : ℕ) : ℚ) := by
    show (2000 / 1000 * (rate.toNat : ℚ)) = _
    push_cast
    ring
  have hfits : 2 * rate.toNat ≤ 2 ^ 64 - 1 := by
    have hlt := rate.isLt
    omega
  unfold maxSamples
  rw [hsize]
  show Nat.min ⌊((⌈((2 * rate.toNat : ℕ) : ℚ)⌉ : ℤ) : ℚ)⌋.toNat (2 ^ 64 - 1) + 1 = _
  rw [Int.ceil_natCast, Int.floor_intCast, Int.toNat_natCast]
  exact congrArg (· + 1) (Nat.min_eq_left hfits)

/-- The samples of a delay at the rate of a host. -/
def samplesAt (sampleRate : BitVec 64) (delayMs : ℚ) : ℕ :=
  ⌊delayMs * sampleRate.toNat / 1000⌋.toNat

/-- Each delay in the declared range has its slots, and a run reads that far back. -/
def Covers (delay : Delay ℚ Λ) (sampleRate : BitVec 64) : Prop :=
  ∀ c : Controls ℚ, 0 ≤ c.delayMs → c.delayMs ≤ maxDelayMs →
    samplesAt sampleRate c.delayMs + 1 ≤ delay.buffer.length ∧
      c.delay delay = samplesAt sampleRate c.delayMs

theorem samplesAt_le (sampleRate : BitVec 64) {delayMs : ℚ} (h : delayMs ≤ maxDelayMs) :
    samplesAt sampleRate delayMs ≤ 2 * sampleRate.toNat := by
  have hrate : (0 : ℚ) ≤ sampleRate.toNat := Nat.cast_nonneg _
  have hle : delayMs * sampleRate.toNat / 1000 ≤ ((2 * sampleRate.toNat : ℕ) : ℚ) := by
    have hmul := mul_le_mul_of_nonneg_right (show delayMs ≤ 2000 from h) hrate
    push_cast
    linarith
  refine Int.toNat_le.mpr ?_
  rw [← Int.floor_natCast (R := ℚ)]
  exact Int.floor_le_floor hle

/-- The longest delay of the range. -/
theorem samplesAt_max (sampleRate : BitVec 64) :
    samplesAt sampleRate maxDelayMs = 2 * sampleRate.toNat := by
  have hmax : (maxDelayMs * sampleRate.toNat / 1000 : ℚ) = ((2 * sampleRate.toNat : ℕ) : ℚ) := by
    show (2000 * (sampleRate.toNat : ℚ) / 1000) = _
    push_cast
    ring
  rw [samplesAt, hmax, Int.floor_natCast, Int.toNat_natCast]

/-- What a run makes of a delay control that is in range, at a rate that fits. -/
theorem delaySamples_eq {sampleRate : BitVec 64} (hrate : sampleRate.toNat < 2 ^ 32)
    {delayMs : ℚ} (hpos : 0 ≤ delayMs) (hmax : delayMs ≤ maxDelayMs) :
    delaySamples delayMs (sampleRate.setWidth 32) = samplesAt sampleRate delayMs := by
  have hproduct : (Sample.max delayMs 0 * Sample.ofRat (1 / 1000) *
      Sample.ofRat (sampleRate.setWidth 32).toNat : ℚ) =
      delayMs * sampleRate.toNat / 1000 := by
    rw [Entry.toNat_narrowed hrate]
    show (if delayMs < 0 then 0 else delayMs) * (1 / 1000) * (sampleRate.toNat : ℚ) = _
    rw [if_neg (not_lt.mpr hpos)]
    ring
  have hle : samplesAt sampleRate delayMs ≤ 2 ^ 64 - 1 := by
    have := samplesAt_le sampleRate hmax
    omega
  unfold delaySamples
  rw [hproduct]
  exact Nat.min_eq_left hle

/-- **The delay plugin**: its buffer covers the declared range exactly when the host's rate
fits. -/
theorem covers_instantiate_iff (sink : Sink Λ (DelayLogEvent ℚ)) (sampleRate : BitVec 64) :
    (instantiate sink (sampleRate.setWidth 32)).Covers sampleRate ↔
      sampleRate.toNat < 2 ^ 32 := by
  have hlength : (instantiate sink (sampleRate.setWidth 32)).buffer.length =
      2 * (sampleRate.setWidth 32).toNat + 1 := by
    rw [instantiate, List.length_replicate, maxSamples_eq]
  constructor
  · intro h
    by_contra hge
    have hslots := (h ⟨maxDelayMs, 0, 0⟩ (show (0 : ℚ) ≤ 2000 by norm_num) le_rfl).1
    rw [hlength, samplesAt_max] at hslots
    have hlt := Entry.toNat_narrowed_lt (not_lt.mp hge)
    omega
  · intro hlt c hpos hmax
    have hle := samplesAt_le sampleRate hmax
    rw [← Entry.toNat_narrowed hlt] at hle
    refine ⟨by omega, ?_⟩
    rw [Controls.delay, hlength]
    show min (delaySamples c.delayMs (sampleRate.setWidth 32)) _ = _
    rw [delaySamples_eq hlt hpos hmax]
    omega

/-- **Built for the host's rate**: a plugin is, and the buffer of a delay covers the declared
range at that rate, exactly when the rate fits in 32 bits. -/
theorem built_for_rate_iff {α σ Λ : Type} (P : Entry.Plugin α σ)
    (sink : Sink Λ (DelayLogEvent ℚ)) (sampleRate : BitVec 64) :
    (∀ {w w' : Entry.World P} {address handle : Entry.Handle},
      w.instantiateShim sampleRate address = (handle, w') → handle ≠ 0 →
      ∃ inst, w'.heap handle = some inst ∧
        (inst.BuiltFor sampleRate ↔ sampleRate.toNat < 2 ^ 32)) ∧
    ∀ {w w' : Entry.World (plugin sink)} {address handle : Entry.Handle},
      w.instantiateShim sampleRate address = (handle, w') → handle ≠ 0 →
      ∃ inst, w'.heap handle = some inst ∧
        (inst.plugin.Covers sampleRate ↔ sampleRate.toNat < 2 ^ 32) := by
  constructor
  · intro w w' address handle hshim hnull
    obtain ⟨plugin, hplugin, hheap⟩ := Entry.instantiateShim_cases hshim hnull
    exact ⟨.new P plugin, hheap, Entry.builtFor_new_iff hplugin⟩
  · intro w w' address handle hshim hnull
    obtain ⟨delay, hdelay, hheap⟩ := Entry.instantiateShim_cases hshim hnull
    obtain rfl := Except.ok.inj hdelay
    exact ⟨.new (plugin sink) _, hheap, covers_instantiate_iff sink sampleRate⟩

/-- A rate of 48000 is kept. -/
theorem built_for_48000 :
    (oneDelay.instantiateShim 48000#64 2).1 ≠ 0 ∧
      ∃ inst, (oneDelay.instantiateShim 48000#64 2).2.heap 2 = some inst ∧
        (inst.BuiltFor 48000#64 ↔ (48000#64).toNat < 2 ^ 32) :=
  ⟨by decide, (built_for_rate_iff _ acceptAll 48000#64).1 (by rfl) (by decide)⟩

/-- **A failing rate**: the first one that does not fit comes out as zero. -/
theorem rate_lost :
    ∃ inst, (oneDelay.instantiateShim 4294967296#64 2).1 = 2 ∧
      (oneDelay.instantiateShim 4294967296#64 2).2.heap 2 = some inst ∧
      inst.plugin.sampleRate = 0#32 ∧ ¬ inst.BuiltFor 4294967296#64 ∧
      ¬ inst.plugin.Covers 4294967296#64 := by
  have hnarrow : ¬ (4294967296#64).toNat < 2 ^ 32 := by decide
  refine ⟨.new (plugin acceptAll) (instantiate acceptAll _), rfl, rfl, rfl, ?_, ?_⟩
  · rw [Entry.builtFor_new_iff rfl]
    exact hnarrow
  · show ¬ (instantiate acceptAll _).Covers _
    rw [covers_instantiate_iff]
    exact hnarrow

end Delay
