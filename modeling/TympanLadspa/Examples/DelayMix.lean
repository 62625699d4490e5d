import TympanLadspa.Examples.DelayEcho
import TympanLadspa.Examples.Reset
import Mathlib.Tactic.Ring

/-!
# Superposition in the delay

With the same controls the delay is linear, however they change from run to run: what is heard of
a mix of two inputs is that mix of what is heard of each.
-/

namespace Delay

open DelayLine (Combines)
open Port (Sample)

variable {Λ : Type}

/-- A mix of two samples. -/
def mixed (a b x y : ℚ) : ℚ := a * x + b * y

/-- Two samples that are processed with the same parameters. -/
structure Tap.Alike (tap tap' : Tap ℚ) : Prop where
  steps : tap'.steps = tap.steps
  feedback : tap'.feedback = tap.feedback
  mix : tap'.mix = tap.mix

def Tap.mixed (a b : ℚ) (tap tap' : Tap ℚ) : Tap ℚ :=
  { tap with sample := Delay.mixed a b tap.sample tap'.sample }

variable {a b : ℚ}

theorem Tap.Alike.out_mixed {tap tap' : Tap ℚ} (h : tap.Alike tap') (y y' : ℚ) :
    (tap.mixed a b tap').out (Delay.mixed a b y y') =
      Delay.mixed a b (tap.out y) (tap'.out y') := by
  simp only [Tap.out, Tap.mixed, Delay.mixed, h.mix]
  ring

theorem Tap.Alike.kept_mixed {tap tap' : Tap ℚ} (h : tap.Alike tap') (y y' : ℚ) :
    (tap.mixed a b tap').kept (Delay.mixed a b y y') =
      Delay.mixed a b (tap.kept y) (tap'.kept y') := by
  simp only [Tap.kept, Tap.mixed, Delay.mixed, h.feedback]
  ring

/-- **A stream is linear**: the lines stay mixed, and so does what comes out. -/
theorem stream_mixed {l l' both : DelayLine ℚ} (h : Combines (mixed a b) l l' both)
    {taps taps' : List (Tap ℚ)} (halike : List.Forall₂ Tap.Alike taps taps')
    (hsteps : ∀ tap ∈ taps, tap.steps ≤ both.len) :
    (stream both (List.zipWith (Tap.mixed a b) taps taps')).1 =
      List.zipWith (mixed a b) (stream l taps).1 (stream l' taps').1 := by
  induction halike generalizing l l' both with
  | nil => rfl
  | @cons tap tap' taps taps' htap _ ih =>
    have hago : both.ago tap.steps = mixed a b (l.ago tap.steps) (l'.ago tap'.steps) := by
      rw [htap.steps]
      exact h.ago_of_le (hsteps tap List.mem_cons_self)
    have hnext := h.push (tap.kept (l.ago tap.steps)) (tap'.kept (l'.ago tap'.steps))
    have hrest := ih hnext fun t ht => by
      rw [DelayLine.len_push]
      exact hsteps t (List.mem_cons_of_mem tap ht)
    have hread : both.ago (tap.mixed a b tap').steps = both.ago tap.steps := rfl
    rw [List.zipWith_cons_cons, stream_cons, stream_cons, stream_cons, List.zipWith_cons_cons,
      hread, hago, htap.out_mixed, htap.kept_mixed, hrest]

/-- Runs on two inputs and on the mix of them, with the same controls. -/
structure MixedTurns (a b : ℚ) where
  left : Turn ℚ
  right : Turn ℚ
  both : Turn ℚ
  frames : right.frames = left.frames
  controls_right : right.controls = left.controls
  controls_both : both.controls = left.controls
  samples : both.samples = List.zipWith (mixed a b) left.samples right.samples

namespace MixedTurns

variable (t : MixedTurns a b) (sampleRate : BitVec 32) (len : ℕ)

theorem taps_alike : List.Forall₂ Tap.Alike ((t.left.request sampleRate).taps len)
    ((t.right.request sampleRate).taps len) := by
  rw [Turn.taps_request, Turn.taps_request, List.forall₂_map_left_iff,
    List.forall₂_map_right_iff, List.forall₂_iff_zip, t.controls_right]
  refine ⟨?_, fun _ => ⟨rfl, rfl, rfl⟩⟩
  rw [Turn.samples_length, Turn.samples_length, t.frames]

theorem taps_both : (t.both.request sampleRate).taps len =
    List.zipWith (Tap.mixed a b) ((t.left.request sampleRate).taps len)
      ((t.right.request sampleRate).taps len) := by
  rw [Turn.taps_request, Turn.taps_request, Turn.taps_request, t.samples, t.controls_both,
    List.map_zipWith, List.zipWith_map]
  rfl

end MixedTurns

variable {ts : List (MixedTurns a b)}

/-- Runs on two inputs are alike, and on the mix are the mix. -/
theorem signal_mixed (sampleRate : BitVec 32) (len : ℕ) (ts : List (MixedTurns a b)) :
    List.Forall₂ Tap.Alike (signal len ((ts.map MixedTurns.left).map (Turn.request sampleRate)))
        (signal len ((ts.map MixedTurns.right).map (Turn.request sampleRate))) ∧
      signal len ((ts.map MixedTurns.both).map (Turn.request sampleRate)) =
        List.zipWith (Tap.mixed a b)
          (signal len ((ts.map MixedTurns.left).map (Turn.request sampleRate)))
          (signal len ((ts.map MixedTurns.right).map (Turn.request sampleRate))) := by
  induction ts with
  | nil => exact ⟨.nil, rfl⟩
  | cons t ts ih =>
    obtain ⟨halike, hboth⟩ := ih
    have hfirst := t.taps_alike sampleRate len
    simp only [signal, List.map_cons, List.flatMap_cons] at halike hboth ⊢
    constructor
    · exact List.rel_append hfirst halike
    · rw [List.zipWith_append hfirst.length_eq, t.taps_both, hboth]

/-- **Superposition**, from any three states whose lines are mixed the same way, over any
number of runs of any sizes and with any controls. -/
theorem heard_mixed (sink : Sink Λ (DelayLogEvent ℚ)) {sampleRate : BitVec 32}
    {left right both : Delay ℚ Λ} (hleft : left.Fits sampleRate) (hright : right.Fits sampleRate)
    (hboth : both.Fits sampleRate)
    (hlines : Combines (mixed a b) (left.line hleft.wellFormed) (right.line hright.wellFormed)
      (both.line hboth.wellFormed)) (ts : List (MixedTurns a b)) :
    ∃ rs rs' rs'',
      (plugin sink).cycles left ((ts.map MixedTurns.left).map Turn.cycle) = .ok rs ∧
      (plugin sink).cycles right ((ts.map MixedTurns.right).map Turn.cycle) = .ok rs' ∧
      (plugin sink).cycles both ((ts.map MixedTurns.both).map Turn.cycle) = .ok rs'' ∧
      heard (ts.map MixedTurns.both) rs'' = List.zipWith (mixed a b)
        (heard (ts.map MixedTurns.left) rs) (heard (ts.map MixedTurns.right) rs') := by
  obtain ⟨rs, hrs, hheard⟩ := exists_heard sink (ts.map MixedTurns.left) hleft.wellFormed
  obtain ⟨rs', hrs', hheard'⟩ := exists_heard sink (ts.map MixedTurns.right) hright.wellFormed
  obtain ⟨rs'', hrs'', hheard''⟩ := exists_heard sink (ts.map MixedTurns.both) hboth.wellFormed
  refine ⟨rs, rs', rs'', hrs, hrs', hrs'', ?_⟩
  rw [hleft.rate, hleft.length] at hheard
  rw [hright.rate, hright.length] at hheard'
  obtain ⟨halike, hsignal⟩ := signal_mixed sampleRate (maxSamples ℚ sampleRate) ts
  rw [hboth.rate, hboth.length, hsignal] at hheard''
  rw [hheard'', hheard, hheard']
  refine stream_mixed hlines halike fun tap htap => ?_
  obtain ⟨r, -, hsteps, -, -⟩ := steps_of_mem_signal htap
  have hlen : (both.line hboth.wellFormed).len = maxSamples ℚ sampleRate := hboth.length
  rw [hsteps, hlen]
  exact (Nat.min_le_right _ _).trans (Nat.sub_le _ _)

/-- New delays are mixed in any way. -/
theorem combines_instantiate (sink : Sink Λ (DelayLogEvent ℚ)) (sampleRate : BitVec 32) :
    Combines (mixed a b)
      ((instantiate sink sampleRate).line (instantiate_wellFormed sink sampleRate))
      ((instantiate sink sampleRate).line (instantiate_wellFormed sink sampleRate))
      ((instantiate sink sampleRate).line (instantiate_wellFormed sink sampleRate)) :=
  .zeros (Nat.succ_pos (maxSamples ℚ sampleRate - 1)) (by rw [mixed, mul_zero, mul_zero, add_zero])

/-- Three times the one input and four times the other, behind a period of a sample. -/
def oneMixed (x y : ℚ) : MixedTurns 3 4 where
  left := oneTurn x 1000 (1 / 2) 1
  right := oneTurn y 1000 (1 / 2) 1
  both := oneTurn (3 * x + 4 * y) 1000 (1 / 2) 1
  frames := rfl
  controls_right := rfl
  controls_both := rfl
  samples := rfl

theorem two_runs_mixed :
    ∃ rs rs' rs'',
      (plugin acceptAll).cycles (instantiate acceptAll 1#32)
        (([oneMixed 1 5, oneMixed 0 2].map MixedTurns.left).map Turn.cycle) = .ok rs ∧
      (plugin acceptAll).cycles (instantiate acceptAll 1#32)
        (([oneMixed 1 5, oneMixed 0 2].map MixedTurns.right).map Turn.cycle) = .ok rs' ∧
      (plugin acceptAll).cycles (instantiate acceptAll 1#32)
        (([oneMixed 1 5, oneMixed 0 2].map MixedTurns.both).map Turn.cycle) = .ok rs'' ∧
      heard ([oneMixed 1 5, oneMixed 0 2].map MixedTurns.both) rs'' =
        List.zipWith (mixed 3 4) (heard ([oneMixed 1 5, oneMixed 0 2].map MixedTurns.left) rs)
          (heard ([oneMixed 1 5, oneMixed 0 2].map MixedTurns.right) rs') :=
  heard_mixed acceptAll (instantiate_fits acceptAll 1#32) (instantiate_fits acceptAll 1#32)
    (instantiate_fits acceptAll 1#32) (combines_instantiate acceptAll 1#32) _

end Delay
