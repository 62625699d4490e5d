import TympanLadspa.Examples.DelayShift
import TympanLadspa.Foundations.Comb
import Mathlib.Algebra.Order.Field.Rat

/-!
# What is heard of a delay

The runs of the plugin as a filter, on the memory of the host and over any sizes of blocks. With
controls that stay it is a comb: the dry signal, and an echo for each period. With controls that
do not it is still linear.
-/

namespace Delay

open Comb (echoes Follows)
open DelayLine (past zeros)
open Finset (range)
open Port (Memory Sample)

section

variable {α Λ : Type} [Sample α]

/-- The signal of a run: every sample, with the controls of the run. -/
theorem Turn.taps_request (t : Turn α) (sampleRate : BitVec 32) (len : ℕ) :
    (t.request sampleRate).taps len = t.samples.map fun x =>
      ⟨x, min (delaySamples t.controls.delayMs sampleRate) (len - 1),
        Sample.clamp t.controls.feedback 0 feedbackCap, Sample.clamp t.controls.mix 0 1⟩ := by
  show (t.samples.take (t.cycle.memory.cells t.output t.frames).length).map _ = _
  rw [Memory.cells_length, ← t.samples_length, List.take_length]
  rfl

/-- **What is heard of runs** is the stream of their signals. -/
theorem exists_heard (sink : Sink Λ (DelayLogEvent α)) (ts : List (Turn α)) {delay : Delay α Λ}
    (h : delay.WellFormed) :
    ∃ rs, (plugin sink).cycles delay (ts.map Turn.cycle) = .ok rs ∧
      heard ts rs = (stream (delay.line h) (signal delay.buffer.length
        (ts.map (Turn.request delay.sampleRate)))).1 := by
  obtain ⟨rs, line, hrs, hcalls⟩ := cycles_eq sink ts h
  have hstream := applyAll_eq (ts.map (Turn.request delay.sampleRate)) (delay.line h)
  obtain ⟨heq, -⟩ := Prod.mk.inj (Except.ok.inj (hcalls.symm.trans hstream))
  exact ⟨rs, hrs, heq⟩

end

-- ════════════════════════════════════════════════════════════════════════
-- Controls that stay
-- ════════════════════════════════════════════════════════════════════════

variable {Λ : Type}

/-- A sample of a signal, silent past its end. -/
def sampleAt (xs : List ℚ) (n : ℕ) : ℚ := xs[n]?.getD 0

/-- The samples between a sound and its echo. An offset of zero has the period of the line. -/
def period (sampleRate : BitVec 32) (c : Controls ℚ) : ℕ :=
  stepsBack (maxSamples ℚ sampleRate)
    (min (delaySamples c.delayMs sampleRate) (maxSamples ℚ sampleRate - 1))

theorem period_pos (sampleRate : BitVec 32) (c : Controls ℚ) : 1 ≤ period sampleRate c :=
  stepsBack_pos (Nat.succ_pos _) _

theorem period_le (sampleRate : BitVec 32) (c : Controls ℚ) :
    period sampleRate c ≤ maxSamples ℚ sampleRate :=
  stepsBack_le ((Nat.min_le_right _ _).trans (Nat.sub_le _ _))

/-- A stream with parameters that stay, from a silent line. -/
theorem stream_comb {len start p : ℕ} (hstart : start < len) (hp : 1 ≤ p) (hle : p ≤ len)
    (g mix : ℚ) (xs : List ℚ) {n : ℕ} (hn : n < xs.length) :
    (stream (zeros ℚ hstart) (xs.map fun x => ⟨x, p, g, mix⟩)).1[n]? =
      some ((1 - mix) * sampleAt xs n +
        mix * ∑ k ∈ range (n / p), g ^ k * sampleAt xs (n - (k + 1) * p)) := by
  have hget : ∀ k < xs.length,
      (xs.map fun x => (⟨x, p, g, mix⟩ : Tap ℚ))[k]? = some ⟨sampleAt xs k, p, g, mix⟩ := by
    intro k hk
    rw [List.getElem?_map, sampleAt, List.getElem?_eq_getElem hk]
    rfl
  have hsteps : ∀ tap ∈ xs.map fun x => (⟨x, p, g, mix⟩ : Tap ℚ),
      1 ≤ tap.steps ∧ tap.steps ≤ (zeros ℚ hstart).len := by
    intro tap htap
    obtain ⟨x, -, rfl⟩ := List.mem_map.mp htap
    rw [DelayLine.len_zeros]
    exact ⟨hp, hle⟩
  have hfollows : Follows p g (sampleAt xs) (echo (xs.map fun x => ⟨x, p, g, mix⟩)) xs.length := by
    intro k hk
    exact echo_eq (hget k hk) hp
  have hall : ∀ k, (xs.map fun x => (⟨x, p, g, mix⟩ : Tap ℚ))[k]? =
      (xs.map fun x => (⟨x, p, g, mix⟩ : Tap ℚ))[0 + k]? := fun k => by
    rw [Nat.zero_add]
  obtain ⟨-, houts⟩ := stream_echo hall (DelayLine.zeros_holds hstart _) hsteps
  rw [houts n _ (hget n hn), Nat.zero_add, Tap.out, hfollows.past_eq hp hn]

/-- The signal of runs with the same controls. -/
theorem signal_of_controls (sampleRate : BitVec 32) {c : Controls ℚ} {ts : List (Turn ℚ)}
    (hts : ∀ t ∈ ts, t.controls = c) (len : ℕ) :
    signal len (ts.map (Turn.request sampleRate)) = (ts.flatMap Turn.samples).map fun x =>
      ⟨x, min (delaySamples c.delayMs sampleRate) (len - 1),
        Sample.clamp c.feedback 0 feedbackCap, Sample.clamp c.mix 0 1⟩ := by
  induction ts with
  | nil => rfl
  | cons t ts ih =>
    have hrest := ih fun u hu => hts u (List.mem_cons_of_mem t hu)
    rw [signal] at hrest ⊢
    rw [List.map_cons, List.flatMap_cons, hrest, t.taps_request, hts t List.mem_cons_self,
      List.flatMap_cons, List.map_append]

/-- **Echoes.** What a new delay makes of a signal while its controls stay, over any number of
runs of any sizes: the signal, and for each period that has gone by the echo from then, weaker by
the feedback each time round. -/
theorem heard_echoes (sink : Sink Λ (DelayLogEvent ℚ)) (sampleRate : BitVec 32) {c : Controls ℚ}
    {ts : List (Turn ℚ)} (hts : ∀ t ∈ ts, t.controls = c) :
    ∃ rs, (plugin sink).cycles (instantiate sink sampleRate) (ts.map Turn.cycle) = .ok rs ∧
      (heard ts rs).length = (ts.flatMap Turn.samples).length ∧
      ∀ n < (ts.flatMap Turn.samples).length, (heard ts rs)[n]? =
        some ((1 - Sample.clamp c.mix 0 1) * sampleAt (ts.flatMap Turn.samples) n +
          Sample.clamp c.mix 0 1 * ∑ k ∈ range (n / period sampleRate c),
            Sample.clamp c.feedback 0 feedbackCap ^ k *
              sampleAt (ts.flatMap Turn.samples) (n - (k + 1) * period sampleRate c)) := by
  have hwellFormed := instantiate_wellFormed sink sampleRate
  have hlength : (instantiate sink sampleRate).buffer.length = maxSamples ℚ sampleRate :=
    List.length_replicate
  have hpos : 0 < maxSamples ℚ sampleRate := Nat.succ_pos _
  obtain ⟨rs, hrs, hheard⟩ := exists_heard sink ts hwellFormed
  have hline : (instantiate sink sampleRate).line hwellFormed = zeros ℚ hpos := rfl
  have hrate : (instantiate sink sampleRate).sampleRate = sampleRate := rfl
  have hsignal := signal_of_controls sampleRate hts (maxSamples ℚ sampleRate)
  have haround := stream_around (zeros ℚ hpos) (signal (maxSamples ℚ sampleRate)
    (ts.map (Turn.request sampleRate)))
  rw [DelayLine.len_zeros, hsignal, List.map_map] at haround
  rw [hlength, hline, hrate, hsignal, ← haround] at hheard
  refine ⟨rs, hrs, ?_, fun n hn => ?_⟩
  · rw [hheard, stream_length, List.length_map]
  · rw [hheard]
    exact stream_comb hpos (period_pos sampleRate c) (period_le sampleRate c) _ _ _ hn

/-- An impulse with a period of one sample; each echo is half as loud as the one before. -/
def impulseTurns : List (Turn ℚ) :=
  [oneTurn 1 1000 (1 / 2) 1, oneTurn 0 1000 (1 / 2) 1, oneTurn 0 1000 (1 / 2) 1]

theorem impulse_echoes :
    (∀ t ∈ impulseTurns, t.controls = ⟨1000, 1 / 2, 1⟩) ∧
      ∃ rs, (plugin acceptAll).cycles (instantiate acceptAll 1#32)
          (impulseTurns.map Turn.cycle) = .ok rs ∧
        (heard impulseTurns rs)[1]? = some 1 ∧ (heard impulseTurns rs)[2]? = some (1 / 2) := by
  have hcontrols : ∀ t ∈ impulseTurns, t.controls = ⟨1000, 1 / 2, 1⟩ :=
    List.forall_mem_cons.mpr ⟨rfl, List.forall_mem_cons.mpr ⟨rfl,
      List.forall_mem_singleton.mpr rfl⟩⟩
  obtain ⟨rs, hrs, -, hget⟩ := heard_echoes acceptAll 1#32 hcontrols
  refine ⟨hcontrols, rs, hrs, (hget 1 (by decide)).trans ?_, (hget 2 (by decide)).trans ?_⟩
  · decide +kernel
  · decide +kernel

end Delay
