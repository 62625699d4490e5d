import Mathlib.Data.BitVec

/-!
# Constants of the LADSPA header

The bit fields of `raw/types.rs`; a `c_int` is a `BitVec 32`.
-/

namespace Raw

/-- `LADSPA_Properties`. -/
abbrev Properties := BitVec 32

def propertyInplaceBroken : Properties := 0x2#32

/-- `LADSPA_PortDescriptor`. -/
abbrev PortDescriptor := BitVec 32

def portInput : PortDescriptor := 0x1#32
def portOutput : PortDescriptor := 0x2#32
def portControl : PortDescriptor := 0x4#32
def portAudio : PortDescriptor := 0x8#32

/-- `LADSPA_PortRangeHintDescriptor`. -/
abbrev PortRangeHintDescriptor := BitVec 32

def hintBoundedBelow : PortRangeHintDescriptor := 0x1#32
def hintBoundedAbove : PortRangeHintDescriptor := 0x2#32
def hintToggled : PortRangeHintDescriptor := 0x4#32
def hintSampleRate : PortRangeHintDescriptor := 0x8#32
def hintLogarithmic : PortRangeHintDescriptor := 0x10#32
def hintInteger : PortRangeHintDescriptor := 0x20#32

/-- The window of the symbolic defaults below. -/
def hintDefaultMask : PortRangeHintDescriptor := 0x3C0#32

def hintDefaultNone : PortRangeHintDescriptor := 0x0#32
def hintDefaultMinimum : PortRangeHintDescriptor := 0x40#32
def hintDefaultLow : PortRangeHintDescriptor := 0x80#32
def hintDefaultMiddle : PortRangeHintDescriptor := 0xC0#32
def hintDefaultHigh : PortRangeHintDescriptor := 0x100#32
def hintDefaultMaximum : PortRangeHintDescriptor := 0x140#32
def hintDefault0 : PortRangeHintDescriptor := 0x200#32
def hintDefault1 : PortRangeHintDescriptor := 0x240#32
def hintDefault100 : PortRangeHintDescriptor := 0x280#32
def hintDefault440 : PortRangeHintDescriptor := 0x2C0#32

end Raw
