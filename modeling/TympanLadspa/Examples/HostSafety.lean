import TympanLadspa.Entry.Contract
import TympanLadspa.Examples.DelaySafety
import TympanLadspa.Examples.NoiseGate

/-!
# The example plugins do not panic

A panic in a shim would unwind into the host. The runs of the three plugins go through on the
ports of any instance, whatever is in memory and however many frames there are, so that a host
that keeps to the contract is never stopped by one.
-/

open Port (AbsSample Ports Prog Sample Slice)

-- ════════════════════════════════════════════════════════════════════════
-- The gain
-- ════════════════════════════════════════════════════════════════════════

namespace Gain

variable {α : Type} [Mul α] {ports : Ports α}

theorem process_succeeds {input output : Slice} (hin : ports.audioInput 0 = .ok input)
    (hout : ports.audioOutput 1 = .ok output) (gain : α) {n i : ℕ}
    (hinput : i + n ≤ input.len) (houtput : i + n ≤ output.len) :
    (process gain n i).Succeeds ports fun _ => True := by
  induction n generalizing i with
  | zero => exact .done trivial
  | succ n ih =>
    have hload := Ports.resolve_readInput hin (show i < input.len by omega)
    apply Prog.Succeeds.op hload
    intro m
    apply Prog.Succeeds.op (Ports.resolve_writeOutput hout (show i < output.len by omega) _)
    intro _
    exact ih (by omega) (by omega)

theorem sturdy [Zero α] [OfNat α 4] : (plugin : Entry.Plugin α Unit).Sturdy fun _ => True where
  instantiate _ _ _ := trivial
  activate _ _ := trivial
  deactivate _ _ := trivial
  run inst frames _ := by
    obtain ⟨gain, hgain⟩ := inst.exists_controlInput frames 2 rfl
    obtain ⟨input, output, hslices, hin, hout⟩ :=
      inst.exists_audioInOut frames 0 1 rfl rfl
    apply Prog.Succeeds.op (Ports.resolve_controlInput hgain)
    intro m
    apply Prog.Succeeds.reply (Ports.resolve_audioInOut hslices)
    exact process_succeeds hin hout _ (by omega) (by omega)

end Gain

-- ════════════════════════════════════════════════════════════════════════
-- The gate
-- ════════════════════════════════════════════════════════════════════════

namespace NoiseGate

variable {α : Type} [AbsSample α] {ports : Ports α}

theorem applyGate_succeeds {inPort outPort : ℕ} {input output : Slice}
    (hin : ports.audioInput inPort = .ok input) (hout : ports.audioOutput outPort = .ok output)
    (openThreshold closeThreshold : α) {n i : ℕ} (hinput : i + n ≤ input.len)
    (houtput : i + n ≤ output.len) (state : Bool) :
    (applyGate inPort outPort openThreshold closeThreshold n i state).Succeeds ports
      fun _ => True := by
  induction n generalizing i state with
  | zero => exact .done trivial
  | succ n ih =>
    have hload := Ports.resolve_readInput hin (show i < input.len by omega)
    have hstore := Ports.resolve_writeOutput hout (show i < output.len by omega)
    apply Prog.Succeeds.load hload
    intro x
    have hrest := ih (show i + 1 + n ≤ input.len by omega) (by omega)
      (latch openThreshold closeThreshold state x)
    by_cases hopen : latch openThreshold closeThreshold state x = true
    · rw [if_pos hopen]
      apply Prog.Succeeds.load hload
      intro y
      exact .store (hstore y) hrest
    · rw [if_neg hopen]
      exact .store (hstore 0) hrest

theorem sturdy : (plugin α).Sturdy fun _ => True where
  instantiate _ _ _ := trivial
  activate _ _ := trivial
  deactivate _ _ := trivial
  run inst frames _ := by
    obtain ⟨openCell, hopen⟩ := inst.exists_controlInput frames 2 rfl
    obtain ⟨closeCell, hclose⟩ := inst.exists_controlInput frames 3 rfl
    obtain ⟨input, output, hslices, hin, hout⟩ :=
      inst.exists_audioInOut frames 0 1 rfl rfl
    apply Prog.Succeeds.load (Ports.resolve_controlInput hopen)
    intro openThreshold
    apply Prog.Succeeds.load (Ports.resolve_controlInput hclose)
    intro closeThreshold
    apply Prog.Succeeds.reply (Ports.resolve_audioInOut hslices)
    apply Prog.Succeeds.map.mpr
    exact applyGate_succeeds hin hout _ _ (by omega) (by omega) _

end NoiseGate

-- ════════════════════════════════════════════════════════════════════════
-- The delay
-- ════════════════════════════════════════════════════════════════════════

namespace Delay

variable {α Λ : Type} [Sample α]

theorem sturdy (sink : Sink Λ (DelayLogEvent α)) :
    (plugin sink).Sturdy Delay.WellFormed where
  instantiate rate delay h := by
    cases h
    exact instantiate_wellFormed sink rate
  activate _ h := h.activate
  deactivate _ h := h
  run inst frames h :=
    (run_succeeds sink h (lent_of_instance rfl inst frames) frames).of_returns
      (run_returns sink h frames)

end Delay

open Entry (Call World) in
/-- **No panic.** A host that keeps to the contract of the shims, with any number of instances
and frames and anything in memory, gets an answer to every call on each of the example
plugins. -/
theorem examples_never_panic :
    (∀ (α : Type) [Zero α] [Mul α] [OfNat α 4] (memory : Port.Memory α) (as : List (Call α)),
      Transition.Obeys World.step World.May (.start Gain.plugin memory) as →
        ∃ w, Transition.run World.step (.start Gain.plugin memory) as = some w) ∧
    (∀ (α : Type) [AbsSample α] (memory : Port.Memory α) (as : List (Call α)),
      Transition.Obeys World.step World.May (.start (NoiseGate.plugin α) memory) as →
        ∃ w, Transition.run World.step (.start (NoiseGate.plugin α) memory) as = some w) ∧
    ∀ (α Λ : Type) [Sample α] (sink : Sink Λ (DelayLogEvent α)) (memory : Port.Memory α)
      (as : List (Call α)),
      Transition.Obeys World.step World.May (.start (Delay.plugin sink) memory) as →
        ∃ w, Transition.run World.step (.start (Delay.plugin sink) memory) as = some w ∧
          ∀ handle inst, w.heap handle = some inst → inst.plugin.WellFormed := by
  refine ⟨?_, ?_, ?_⟩
  · intro α _ _ _ memory as h
    obtain ⟨w, hrun, -⟩ := World.obeyed Gain.sturdy h
    exact ⟨w, hrun⟩
  · intro α _ memory as h
    obtain ⟨w, hrun, -⟩ := World.obeyed NoiseGate.sturdy h
    exact ⟨w, hrun⟩
  · intro α Λ _ sink memory as h
    exact World.obeyed (Delay.sturdy sink) h

open Entry (World) in
/-- Two gains in the address space of a host, one of them run and destroyed. -/
theorem gain_never_panics : ∃ w : World (Gain.plugin : Entry.Plugin ℤ Unit),
    Transition.run World.step (.start Gain.plugin fun p => (p : ℤ))
      [.instantiate 48000#64 8, .instantiate 44100#64 9, .connectPort 8 0 16,
        .connectPort 8 1 32, .connectPort 8 2 64, .write 64 3, .activate 8, .run 8 4,
        .cleanup 8] = some w := by
  refine examples_never_panic.1 ℤ (fun p => (p : ℤ)) _ ?_
  apply Transition.Obeys.cons rfl ⟨rfl, by decide⟩
  apply Transition.Obeys.cons rfl ⟨rfl, by decide⟩
  apply Transition.Obeys.cons rfl ⟨⟨_, rfl⟩, by decide, by decide⟩
  apply Transition.Obeys.cons rfl ⟨⟨_, rfl⟩, by decide, by decide⟩
  apply Transition.Obeys.cons rfl ⟨⟨_, rfl⟩, by decide, by decide⟩
  apply Transition.Obeys.cons rfl trivial
  apply Transition.Obeys.cons rfl ⟨_, rfl⟩
  apply Transition.Obeys.cons rfl ⟨_, rfl, by decide⟩
  apply Transition.Obeys.cons rfl ⟨_, rfl⟩
  trivial
