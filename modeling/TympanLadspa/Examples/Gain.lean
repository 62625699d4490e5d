import TympanLadspa.Entry.Plugin

/-!
# The gain plugin

The plugin of `examples/gain`: one audio input, one audio output, one control.
-/

namespace Gain

open Port (PortDescriptor Prog)

variable {α : Type} [Zero α] [Mul α]

/-- The sample loop of `run`: `n` frames from `i` on. -/
def process (gain : α) : ℕ → ℕ → Prog α Unit
  | 0, _ => .done ()
  | n + 1, i =>
    .op (.readInput 0 i) fun
      | .data x => .op (.writeOutput 1 i (x * gain)) fun _ => process gain n (i + 1)
      | _ => .done ()

def run : Unit → ℕ → Prog α Unit := fun _ _ =>
  .op (.controlInput 2) fun
    | .data gain =>
      .op (.audioInOut 0 1) fun
        | .slices input output => process gain (min input.len output.len) 0
        | _ => .done ()
    | _ => .done ()

def ports [OfNat α 4] : List (PortDescriptor α) :=
  [.audioInput "In", .audioOutput "Out",
    ((PortDescriptor.controlInput "Gain").withDefault .one).withBounds 0 4]

def plugin [OfNat α 4] : Entry.Plugin α Unit :=
  { uniqueId := 12345#32
    label := "tympan_gain"
    name := "Tympan Linear Gain"
    maker := "tympan-ladspa"
    copyright := "MIT OR Apache-2.0"
    ports := ports
    instantiate := fun _ => .ok ()
    run := run }

end Gain
