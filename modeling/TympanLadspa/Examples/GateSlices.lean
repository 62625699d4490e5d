import TympanLadspa.Examples.NoiseGate
import TympanLadspa.Foundations.Latch
import TympanLadspa.Port.Block

/-!
# `apply_gate` on slices

The function as its tests call it. A sequence of calls with the same thresholds is one pass
over the samples, with the latch carried from call to call (`applyAll_eq`); the loop on the
ports of a run is such a call, in place or not (`run_exec`).
-/

namespace NoiseGate

open Port (AbsSample Sample Memory Ports Prog Ptr Slice)

variable {α : Type} [AbsSample α]

/-- The loop of `apply_gate`, over what is left of the input and the output. -/
def zipSamples (openThreshold closeThreshold : α) :
    List α → List α → Bool → List α × Bool
  | x :: input, _ :: output, state =>
    let state' := latch openThreshold closeThreshold state x
    let (output', state'') := zipSamples openThreshold closeThreshold input output state'
    ((if state' then x else 0) :: output', state'')
  | _, output, state => (output, state)

/-- The slices of a call of `apply_gate`. -/
structure Slices (α : Type) where
  input : List α
  output : List α

/-- The samples that both slices have. -/
def Slices.samples {α : Type} (s : Slices α) : List α := s.input.take s.output.length

/-- One call after the other; the output is what they have processed. -/
def applyAll (openThreshold closeThreshold : α) : List (Slices α) → Bool → List α × Bool
  | [], state => ([], state)
  | s :: ss, state =>
    let (output, state') := zipSamples openThreshold closeThreshold s.input s.output state
    let (outputs, state'') := applyAll openThreshold closeThreshold ss state'
    (output.take s.samples.length ++ outputs, state'')

/-- The samples of a sequence of calls. -/
def signal {α : Type} (ss : List (Slices α)) : List α := ss.flatMap Slices.samples

omit [AbsSample α] in
theorem signal_cons (s : Slices α) (ss : List (Slices α)) :
    signal (s :: ss) = s.samples ++ signal ss := List.flatMap_cons

-- ════════════════════════════════════════════════════════════════════════
-- The latch
-- ════════════════════════════════════════════════════════════════════════

/-- The gate as a latch on samples. -/
def hysteresis (openThreshold closeThreshold : α) : Latch α where
  sets x := Sample.gt (AbsSample.abs x) openThreshold
  resets x := Sample.gt closeThreshold (AbsSample.abs x)

/-- The samples that come through, and zeros for the others. -/
def gated (openThreshold closeThreshold : α) : Bool → List α → List α
  | _, [] => []
  | state, x :: xs =>
    let state' := (hysteresis openThreshold closeThreshold).next state x
    (if state' then x else 0) :: gated openThreshold closeThreshold state' xs

variable {openThreshold closeThreshold : α} {state : Bool}

@[simp] theorem gated_length (xs : List α) :
    (gated openThreshold closeThreshold state xs).length = xs.length := by
  induction xs generalizing state with
  | nil => rfl
  | cons x xs ih => rw [gated, List.length_cons, ih, List.length_cons]

theorem gated_append (xs ys : List α) :
    gated openThreshold closeThreshold state (xs ++ ys) =
      gated openThreshold closeThreshold state xs ++
        gated openThreshold closeThreshold
          ((hysteresis openThreshold closeThreshold).after state xs) ys := by
  induction xs generalizing state with
  | nil => rfl
  | cons x xs ih => rw [List.cons_append, gated, ih, gated, List.cons_append, Latch.after_cons]

/-- A sample comes through when the latch is open behind it. -/
theorem getElem?_gated (xs : List α) (n : ℕ) :
    (gated openThreshold closeThreshold state xs)[n]? = xs[n]?.map fun x =>
      if (hysteresis openThreshold closeThreshold).after state (xs.take (n + 1)) then x
      else 0 := by
  induction xs generalizing state n with
  | nil => rfl
  | cons x xs ih =>
    cases n with
    | zero => rfl
    | succ n => exact ih n

/-- The loop gates the samples that both slices have; the rest of a longer output stays. -/
theorem zipSamples_eq (input output : List α) :
    zipSamples openThreshold closeThreshold input output state =
      (gated openThreshold closeThreshold state (input.take output.length) ++
          output.drop input.length,
        (hysteresis openThreshold closeThreshold).after state (input.take output.length)) := by
  induction input generalizing output state with
  | nil =>
    rw [List.take_nil]
    rfl
  | cons x input ih =>
    cases output with
    | nil => rfl
    | cons y output =>
      rw [zipSamples, ih]
      rfl

/-- **A sequence of calls** is one pass over the signal. -/
theorem applyAll_eq (ss : List (Slices α)) :
    applyAll openThreshold closeThreshold ss state =
      (gated openThreshold closeThreshold state (signal ss),
        (hysteresis openThreshold closeThreshold).after state (signal ss)) := by
  induction ss generalizing state with
  | nil => rfl
  | cons s ss ih =>
    have hlength : (gated openThreshold closeThreshold state s.samples).length =
        s.samples.length := gated_length s.samples
    have htake : (gated openThreshold closeThreshold state s.samples ++
        s.output.drop s.input.length).take s.samples.length =
        gated openThreshold closeThreshold state s.samples := by
      rw [← hlength]
      exact List.take_left
    rw [applyAll, zipSamples_eq]
    simp only [ih, signal_cons, gated_append, Latch.after_append]
    exact congrArg (fun outs => (outs ++ _, _)) htake

-- ════════════════════════════════════════════════════════════════════════
-- Runs
-- ════════════════════════════════════════════════════════════════════════

section Runs

variable {ports : Ports α} {inPort outPort frames : ℕ} {input output : Ptr}

/-- The loop on memory, in place or not: each sample is read before its cell is written. -/
theorem applyGate_exec (hin : ports.audioInput inPort = .ok ⟨input, frames⟩)
    (hout : ports.audioOutput outPort = .ok ⟨output, frames⟩)
    (hapart : input = output ∨
      Disjoint (Slice.mk input frames).region (Slice.mk output frames).region)
    {n i : ℕ} (hn : i + n = frames) (m : Memory α) :
    (applyGate inPort outPort openThreshold closeThreshold n i state).exec ports m =
      .ok ((hysteresis openThreshold closeThreshold).after state (m.cells (input + i) n),
        m.overwrite (output + i)
          (gated openThreshold closeThreshold state (m.cells (input + i) n))) := by
  induction n generalizing i state m with
  | zero => rfl
  | succ n ih =>
    have hi : i < frames := by omega
    have hload := Ports.resolve_readInput hin hi
    have hstore := fun value => Ports.resolve_writeOutput hout hi value
    rw [applyGate, Prog.exec_load hload, Memory.cells, gated, Latch.after_cons]
    by_cases hopen : latch openThreshold closeThreshold state (m (input + i)) = true
    · have hnext : (hysteresis openThreshold closeThreshold).next state (m (input + i)) = true :=
        hopen
      simp only [hopen, hnext, if_true]
      rw [Prog.exec_load hload, Prog.exec_store (hstore _), ih (by omega),
        Memory.cells_update_apart hn hapart]
      rfl
    · rw [Bool.not_eq_true] at hopen
      have hnext : (hysteresis openThreshold closeThreshold).next state (m (input + i)) = false :=
        hopen
      simp only [hopen, hnext, Bool.false_eq_true, if_false]
      rw [Prog.exec_store (hstore _), ih (by omega), Memory.cells_update_apart hn hapart]
      rfl

/-- **What `run` computes** from the memory of its host is a call of `apply_gate`. -/
theorem run_exec {openCell closeCell : Ptr} {count : ℕ}
    (hopen : ports.controlInput 2 = .ok openCell) (hclose : ports.controlInput 3 = .ok closeCell)
    (hin : ports.audioInput 0 = .ok ⟨input, frames⟩)
    (hout : ports.audioOutput 1 = .ok ⟨output, frames⟩)
    (hapart : input = output ∨
      Disjoint (Slice.mk input frames).region (Slice.mk output frames).region)
    (gate : NoiseGate) (m : Memory α) :
    (run gate count).exec ports m =
      .ok
        (⟨(zipSamples (m openCell) (m closeCell) (m.cells input frames) (m.cells output frames)
            gate.isOpen).2⟩,
          m.overwrite output (zipSamples (m openCell) (m closeCell) (m.cells input frames)
            (m.cells output frames) gate.isOpen).1) := by
  have hslices : ports.audioInOut 0 1 = .ok (⟨input, frames⟩, ⟨output, frames⟩) :=
    Ports.audioInOut_eq_ok.mpr ⟨hin, hout⟩
  have htake : (m.cells input frames).take (m.cells output frames).length =
      m.cells input frames := by
    rw [Memory.cells_length]
    exact List.take_of_length_le (Memory.cells_length ..).le
  have hrest : (m.cells output frames).drop (m.cells input frames).length = [] := by
    rw [Memory.cells_length]
    exact List.drop_eq_nil_of_le (Memory.cells_length ..).le
  rw [zipSamples_eq, htake, hrest, List.append_nil, run,
    Prog.exec_load (Ports.resolve_controlInput hopen),
    Prog.exec_load (Ports.resolve_controlInput hclose),
    Prog.exec_reply (Ports.resolve_audioInOut hslices)]
  simp only [Nat.min_self]
  exact Prog.exec_map _ (applyGate_exec hin hout hapart (Nat.zero_add frames) m)

end Runs

end NoiseGate
