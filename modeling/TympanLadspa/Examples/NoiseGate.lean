import TympanLadspa.Entry.Plugin
import TympanLadspa.Port.Sample
import Mathlib.Algebra.Order.Group.Unbundled.Abs
import Mathlib.Algebra.Order.Ring.Rat

/-!
# The noise gate plugin

The plugin of `examples/noise-gate`: a latch that a loud sample opens and a quiet one
closes.
-/

open Port (PortDescriptor Prog Sample)

/-- `Data` with `abs`. -/
class Port.AbsSample (α : Type) extends Sample α where
  abs : α → α

instance : Port.AbsSample ℚ where
  abs q := |q|

/-- Hysteresis gate state. -/
structure NoiseGate where
  isOpen : Bool
deriving Repr, DecidableEq

namespace NoiseGate

open Port (AbsSample)

variable {α : Type} [AbsSample α]

def ports : List (PortDescriptor α) :=
  [.audioInput "In", .audioOutput "Out",
    ((PortDescriptor.controlInput "Open Threshold").withDefault .middle).withBounds 0 1,
    ((PortDescriptor.controlInput "Close Threshold").withDefault .low).withBounds 0 1]

def instantiate (_sampleRate : BitVec 32) : NoiseGate := ⟨false⟩

def activate (gate : NoiseGate) : NoiseGate := { gate with isOpen := false }

/-- The latch behind a sample. -/
def latch (openThreshold closeThreshold : α) (state : Bool) (x : α) : Bool :=
  if Sample.gt (AbsSample.abs x) openThreshold then true
  else if Sample.gt closeThreshold (AbsSample.abs x) then false
  else state

/-- `apply_gate` on the slices of two ports, `n` samples from `i` on. -/
def applyGate (inPort outPort : ℕ) (openThreshold closeThreshold : α) :
    ℕ → ℕ → Bool → Prog α Bool
  | 0, _, state => .done state
  | n + 1, i, state =>
    .load (.readInput inPort i) fun x =>
    let state' := latch openThreshold closeThreshold state x
    let rest := applyGate inPort outPort openThreshold closeThreshold n (i + 1) state'
    if state' then
      .load (.readInput inPort i) fun x => .store (.writeOutput outPort i x) rest
    else .store (.writeOutput outPort i 0) rest

def run (gate : NoiseGate) (_frames : ℕ) : Prog α NoiseGate :=
  .load (.controlInput 2) fun openThreshold =>
  .load (.controlInput 3) fun closeThreshold =>
  .op (.audioInOut 0 1) fun
    | .slices input output =>
      (applyGate 0 1 openThreshold closeThreshold (min input.len output.len) 0
        gate.isOpen).map fun state => { gate with isOpen := state }
    | _ => .fail (.assertion "not a pair of slices")

def plugin (α : Type) [AbsSample α] : Entry.Plugin α NoiseGate where
  uniqueId := 23456#32
  label := "tympan_noise_gate"
  name := "Tympan Hysteresis Noise Gate"
  maker := "tympan-ladspa"
  copyright := "MIT OR Apache-2.0"
  ports := ports
  instantiate := fun sampleRate => .ok (instantiate sampleRate)
  activate := activate
  run := run

end NoiseGate
