import TympanLadspa.Entry.Session
import TympanLadspa.Examples.DelayInPlace
import TympanLadspa.Examples.DelaySlices
import TympanLadspa.Examples.NoiseGate

/-!
# Activation as a reset

Whatever was run before, `activate` leaves a plugin that cannot be told from a new one. For
the delay that is up to its log, which takes no part in what a run computes: with the log
left out, a run is one of the same plugin without a log.
-/

open Port (Prog Sample)

namespace Delay

variable {α Λ Λ' : Type} [Sample α]

/-- No log at all. -/
def mute : Sink Unit (DelayLogEvent α) := ⟨fun _ => (), fun _ _ => (false, ())⟩

/-- A delay without its log. -/
def forget (delay : Delay α Λ) : Delay α Unit := { delay with logger := () }

/-- **Logging has no influence**: a run without its log is a run of a plugin without one. -/
theorem run_map_forget (sink : Sink Λ (DelayLogEvent α)) (delay : Delay α Λ) (frames : ℕ) :
    (run sink delay frames).map forget = run mute delay.forget frames := by
  apply Prog.map_load
  intro delayMs
  apply Prog.map_load
  intro feedback
  apply Prog.map_load
  intro mix
  apply Prog.map_op
  intro reply
  cases reply with
  | slices input output => exact Prog.map_map _ _ _
  | _ => rfl

theorem alike_forget (sink : Sink Λ (DelayLogEvent α)) (sink' : Sink Λ' (DelayLogEvent α)) :
    Entry.Alike (plugin sink) (plugin sink') forget forget := by
  intro delay delay' frames hforget
  show (run sink delay frames).map forget = (run sink' delay' frames).map forget
  rw [run_map_forget, run_map_forget, hforget]

/-- The rate a delay was made for, and a buffer of the length for it. -/
structure Fits (sampleRate : BitVec 32) (delay : Delay α Λ) : Prop where
  rate : delay.sampleRate = sampleRate
  length : delay.buffer.length = maxSamples α sampleRate
  wellFormed : delay.WellFormed

theorem instantiate_fits (sink : Sink Λ (DelayLogEvent α)) (sampleRate : BitVec 32) :
    (instantiate sink sampleRate).Fits sampleRate where
  rate := rfl
  length := List.length_replicate
  wellFormed := instantiate_wellFormed sink sampleRate

/-- No call changes the rate or the length. -/
theorem Fits.visit {sink : Sink Λ (DelayLogEvent α)} {sampleRate : BitVec 32}
    {delay delay' : Delay α Λ} {v : Entry.Visit α} (h : delay.Fits sampleRate)
    (hvisit : (plugin sink).visit delay v = some delay') : delay'.Fits sampleRate := by
  cases v with
  | activate =>
    cases hvisit
    exact ⟨h.rate, List.length_replicate.trans h.length, h.wellFormed.activate⟩
  | run c =>
    obtain ⟨memory, hcycle⟩ := Entry.Plugin.visit_run.mp hvisit
    obtain ⟨hrate, hlength, hwellFormed⟩ :=
      (run_keeps sink h.wellFormed c.ports.frames).exec hcycle
    exact ⟨hrate.trans h.rate, hlength.trans h.length, hwellFormed⟩
  | deactivate =>
    cases hvisit
    exact h

/-- Activation leaves a delay as a new one is, but for the log. -/
theorem Fits.forget_activate {sampleRate : BitVec 32} {delay : Delay α Λ}
    (h : delay.Fits sampleRate) (sink' : Sink Λ' (DelayLogEvent α)) :
    delay.activate.forget = (instantiate sink' sampleRate).forget := by
  unfold activate instantiate forget
  rw [h.rate, h.length]

end Delay

open Entry (Visit)

/-- **Activation is a reset**, behind any history of the plugin: the runs that follow panic
where those of a new plugin do, and otherwise leave the same memory and the same state. The
delay may have any log in place of its own then, and the new one any other. -/
theorem activate_resets {α : Type} [Port.AbsSample α] :
    (∀ {Λ Λ' : Type} (sink : Sink Λ (DelayLogEvent α)) (sink' : Sink Λ' (DelayLogEvent α))
        (sampleRate : BitVec 32) (vs : List (Visit α)) (delay : Delay α Λ) (logger : Λ)
        (cs : List (Entry.Cycle α)),
      Transition.run (Delay.plugin sink).visit (Delay.instantiate sink sampleRate) vs =
        some delay →
      ((Delay.plugin sink).cycles { delay.activate with logger := logger } cs).map
          (List.map (Prod.map Delay.forget id)) =
        ((Delay.plugin sink').cycles (Delay.instantiate sink' sampleRate) cs).map
          (List.map (Prod.map Delay.forget id))) ∧
    ∀ (sampleRate : BitVec 32) (vs : List (Visit α)) (gate : NoiseGate) (cs : List (Entry.Cycle α)),
      Transition.run (NoiseGate.plugin α).visit (NoiseGate.instantiate sampleRate) vs =
        some gate →
      (NoiseGate.plugin α).cycles gate.activate cs =
        (NoiseGate.plugin α).cycles (NoiseGate.instantiate sampleRate) cs := by
  constructor
  · intro Λ Λ' sink sink' sampleRate vs delay logger cs hrun
    have hfits : delay.Fits sampleRate :=
      Transition.run_invariant (fun _ _ _ _ => Delay.Fits.visit) hrun
        (Delay.instantiate_fits sink sampleRate)
    have hforget : ({ delay.activate with logger := logger } : Delay α Λ).forget =
        (Delay.instantiate sink' sampleRate).forget := hfits.forget_activate sink'
    exact (Delay.alike_forget sink sink').cycles hforget cs
  · intro sampleRate vs gate cs _
    -- the latch is all there is to a gate
    rfl

/-- A delay that has a sample in its line, and feedback events in its log. -/
theorem reset_behind_feedback :
    ∃ delay, Transition.run (Delay.plugin Delay.acceptAll).visit
        (Delay.instantiate Delay.acceptAll 48000#32)
        [.run (Delay.oneTurn (1 : ℚ) 1 2 1).cycle] = some delay ∧
      ∀ cs, ((Delay.plugin Delay.acceptAll).cycles { delay.activate with logger := () } cs).map
          (List.map (Prod.map Delay.forget id)) =
        ((Delay.plugin Delay.mute).cycles (Delay.instantiate Delay.mute 48000#32) cs).map
          (List.map (Prod.map Delay.forget id)) := by
  have hrun := Entry.Plugin.visit_run.mpr ⟨_, (Delay.oneTurn (1 : ℚ) 1 2 1).cycle_eq
    Delay.acceptAll _ (Delay.instantiate_wellFormed Delay.acceptAll 48000#32)⟩
  have hhistory := Transition.run_cons_eq_some.mpr ⟨_, hrun, Transition.run_nil _⟩
  exact ⟨_, hhistory, fun cs =>
    activate_resets.1 Delay.acceptAll Delay.mute 48000#32 _ _ () cs hhistory⟩
