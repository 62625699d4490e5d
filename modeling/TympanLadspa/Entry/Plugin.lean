import TympanLadspa.Port.Access

/-!
# Plugins and their descriptors

The `Plugin` trait and the descriptor `DescriptorBundle::build` publishes for one. `σ` is
the type of a plugin's own state; `run` has no access to the host but through its ports.
-/

namespace Entry

open Port (PortDescriptor Prog)

variable {α σ : Type}

inductive InstantiateError
  | sampleRateUnsupported (rate : BitVec 32)
  | outOfMemory
  | other (reason : String)
deriving Repr, DecidableEq

/-- The `Plugin` trait, with its defaults. `ports` is the one slice `P::ports()` returns. -/
structure Plugin (α σ : Type) where
  uniqueId : BitVec 32
  label : String
  name : String
  maker : String
  copyright : String
  properties : Raw.Properties := 0#32
  ports : List (PortDescriptor α)
  instantiate : BitVec 32 → Except InstantiateError σ
  activate : σ → σ := id
  run : σ → ℕ → Prog α σ
  deactivate : σ → σ := id

/-- The character that ends a C string. -/
def nul : Char := Char.ofNat 0

/-- A C string by its characters, without the one that ends it. -/
def CString := {cs : List Char // nul ∉ cs}

/-- The panic of `make_cstring`. -/
structure EmbeddedNul where
  field : String
  value : String
deriving Repr, DecidableEq

def makeCstring (field value : String) : Except EmbeddedNul CString :=
  if h : nul ∉ value.toList then .ok ⟨value.toList, h⟩ else .error ⟨field, value⟩

/-- `raw::PortRangeHint`. -/
structure PortRangeHint (α : Type) where
  hintDescriptor : Raw.PortRangeHintDescriptor
  lowerBound : α
  upperBound : α

/-- `raw::Descriptor`: what a host reads of a plugin. -/
structure Descriptor (α : Type) where
  uniqueId : BitVec 64
  label : CString
  properties : Raw.Properties
  name : CString
  maker : CString
  copyright : CString
  portCount : ℕ
  portDescriptors : List Raw.PortDescriptor
  portNames : List CString
  portRangeHints : List (PortRangeHint α)

/-- `DescriptorBundle::build`. -/
def Plugin.build (P : Plugin α σ) : Except EmbeddedNul (Descriptor α) := do
  let label ← makeCstring "LABEL" P.label
  let name ← makeCstring "NAME" P.name
  let maker ← makeCstring "MAKER" P.maker
  let copyright ← makeCstring "COPYRIGHT" P.copyright
  let portNames ← P.ports.mapM fun p => makeCstring "port name" p.name
  return {
    uniqueId := P.uniqueId.setWidth 64
    label := label
    properties := P.properties
    name := name
    maker := maker
    copyright := copyright
    portCount := P.ports.length
    portDescriptors := P.ports.map fun p => p.kind.ladspaBits
    portNames := portNames
    portRangeHints := P.ports.map fun p =>
      { hintDescriptor := p.hints.descriptor
        lowerBound := p.hints.lower
        upperBound := p.hints.upper } }

/-- `build` publishes the properties of the trait. -/
theorem Plugin.build_properties {P : Plugin α σ} {d : Descriptor α} (h : P.build = .ok d) :
    d.properties = P.properties := by
  obtain ⟨label, -, h⟩ := Port.bind_eq_ok.mp h
  obtain ⟨name, -, h⟩ := Port.bind_eq_ok.mp h
  obtain ⟨maker, -, h⟩ := Port.bind_eq_ok.mp h
  obtain ⟨copyright, -, h⟩ := Port.bind_eq_ok.mp h
  obtain ⟨portNames, -, h⟩ := Port.bind_eq_ok.mp h
  cases h
  rfl

end Entry
