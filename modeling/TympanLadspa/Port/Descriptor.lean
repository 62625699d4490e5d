import TympanLadspa.Port.Raw

/-!
# Port descriptors

The compile-time declarations of `port.rs`: kinds, hints, defaults and the builder
methods. `α` is the type of `Data`.
-/

namespace Port

variable {α : Type*}

inductive PortKind
  | audioInput
  | audioOutput
  | controlInput
  | controlOutput
deriving Repr, DecidableEq

namespace PortKind

/-- The direction and kind bits of a port. -/
def ladspaBits : PortKind → Raw.PortDescriptor
  | audioInput => Raw.portAudio ||| Raw.portInput
  | audioOutput => Raw.portAudio ||| Raw.portOutput
  | controlInput => Raw.portControl ||| Raw.portInput
  | controlOutput => Raw.portControl ||| Raw.portOutput

/-- The text `{:?}` prints for a kind. -/
def debug : PortKind → String
  | audioInput => "AudioInput"
  | audioOutput => "AudioOutput"
  | controlInput => "ControlInput"
  | controlOutput => "ControlOutput"

end PortKind

/-- Range, default value and scaling hints of a port. -/
structure PortHints (α : Type*) where
  descriptor : Raw.PortRangeHintDescriptor
  lower : α
  upper : α
deriving Repr, DecidableEq

/-- No hints: no bit set and both bounds at zero. -/
def PortHints.empty [Zero α] : PortHints α := { descriptor := 0#32, lower := 0, upper := 0 }

/-- The nine defaults the hint word can express. -/
inductive PortDefault
  | minimum
  | low
  | middle
  | high
  | maximum
  | zero
  | one
  | hundred
  | hz440
deriving Repr, DecidableEq

def PortDefault.bits : PortDefault → Raw.PortRangeHintDescriptor
  | minimum => Raw.hintDefaultMinimum
  | low => Raw.hintDefaultLow
  | middle => Raw.hintDefaultMiddle
  | high => Raw.hintDefaultHigh
  | maximum => Raw.hintDefaultMaximum
  | zero => Raw.hintDefault0
  | one => Raw.hintDefault1
  | hundred => Raw.hintDefault100
  | hz440 => Raw.hintDefault440

/-- The declaration of one port. -/
structure PortDescriptor (α : Type*) where
  name : String
  kind : PortKind
  hints : PortHints α
deriving Repr, DecidableEq

namespace PortDescriptor

/-- A port without hints. -/
def declare [Zero α] (kind : PortKind) (name : String) : PortDescriptor α :=
  { name := name, kind := kind, hints := .empty }

def audioInput [Zero α] (name : String) : PortDescriptor α := declare .audioInput name
def audioOutput [Zero α] (name : String) : PortDescriptor α := declare .audioOutput name
def controlInput [Zero α] (name : String) : PortDescriptor α := declare .controlInput name
def controlOutput [Zero α] (name : String) : PortDescriptor α := declare .controlOutput name

/-- Or bits into the hint word. -/
def setHint (p : PortDescriptor α) (bits : Raw.PortRangeHintDescriptor) : PortDescriptor α :=
  { p with hints := { p.hints with descriptor := p.hints.descriptor ||| bits } }

def withBounds (p : PortDescriptor α) (lower upper : α) : PortDescriptor α :=
  let q := p.setHint (Raw.hintBoundedBelow ||| Raw.hintBoundedAbove)
  { q with hints := { q.hints with lower := lower, upper := upper } }

def withDefault (p : PortDescriptor α) (default : PortDefault) : PortDescriptor α :=
  p.setHint default.bits

def integer (p : PortDescriptor α) : PortDescriptor α := p.setHint Raw.hintInteger
def toggled (p : PortDescriptor α) : PortDescriptor α := p.setHint Raw.hintToggled
def logarithmic (p : PortDescriptor α) : PortDescriptor α := p.setHint Raw.hintLogarithmic
def sampleRate (p : PortDescriptor α) : PortDescriptor α := p.setHint Raw.hintSampleRate

end PortDescriptor

end Port
