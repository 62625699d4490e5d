import TympanLadspa.Examples.Gain
import TympanLadspa.Foundations.CStr

/-!
# Reading a descriptor

What a host makes of the descriptor that `build` publishes. The host finds the ports in
three arrays, the names of them and the texts of the plugin in C strings, and the kind of a
port in four bits; it gets the port table of the plugin back, and when there is a
descriptor at all is a matter of zero bytes.
-/

namespace Entry

open Port (PortDescriptor PortKind)

variable {α σ : Type}

/-- The kind that the four bits of a port stand for, if exactly one of each pair is set. -/
def kindOfBits (bits : Raw.PortDescriptor) : Option PortKind :=
  match bits &&& Raw.portAudio != 0#32, bits &&& Raw.portControl != 0#32,
    bits &&& Raw.portInput != 0#32, bits &&& Raw.portOutput != 0#32 with
  | true, false, true, false => some .audioInput
  | true, false, false, true => some .audioOutput
  | false, true, true, false => some .controlInput
  | false, true, false, true => some .controlOutput
  | _, _, _, _ => none

@[simp] theorem kindOfBits_ladspaBits (kind : PortKind) :
    kindOfBits kind.ladspaBits = some kind := by
  cases kind <;> decide

def CString.chars (s : CString) : List Char := s.1

/-- What lies in memory behind the strings and the arrays of a descriptor. -/
structure Behind (α : Type) where
  bytes : CString → List UInt8
  portDescriptors : List Raw.PortDescriptor
  portNames : List CString
  portRangeHints : List (PortRangeHint α)

/-- The text at a `char *`. -/
def readText (behind : Behind α) (s : CString) : Option String :=
  CStr.decode (CStr.read (CStr.encode s.chars ++ 0 :: behind.bytes s))

/-- Entry `i` of each of the three arrays, as one port. -/
def Descriptor.readPort (d : Descriptor α) (behind : Behind α) (i : ℕ) :
    Option (PortDescriptor α) := do
  let bits ← (d.portDescriptors ++ behind.portDescriptors)[i]?
  let kind ← kindOfBits bits
  let name ← (d.portNames ++ behind.portNames)[i]?
  let text ← readText behind name
  let hint ← (d.portRangeHints ++ behind.portRangeHints)[i]?
  return {
    name := text
    kind := kind
    hints :=
      { descriptor := hint.hintDescriptor
        lower := hint.lowerBound
        upper := hint.upperBound } }

/-- What a host knows of a plugin. -/
structure Reading (α : Type) where
  uniqueId : ℕ
  label : String
  properties : Raw.Properties
  name : String
  maker : String
  copyright : String
  ports : List (PortDescriptor α)

/-- A host reads a descriptor: the texts, and as many ports as it says. -/
def Descriptor.read (d : Descriptor α) (behind : Behind α) : Option (Reading α) := do
  let label ← readText behind d.label
  let name ← readText behind d.name
  let maker ← readText behind d.maker
  let copyright ← readText behind d.copyright
  let ports ← (List.range d.portCount).mapM (d.readPort behind)
  return {
    uniqueId := d.uniqueId.toNat
    label := label
    properties := d.properties
    name := name
    maker := maker
    copyright := copyright
    ports := ports }

/-- The texts that `build` makes C strings of. -/
def Plugin.texts (P : Plugin α σ) : List String :=
  [P.label, P.name, P.maker, P.copyright] ++ P.ports.map PortDescriptor.name

/-- A text with a zero byte. -/
def HasNul (s : String) : Prop := 0 ∈ CStr.encode s.toList

instance : DecidablePred HasNul := fun _ => inferInstanceAs (Decidable (_ ∈ _))

variable {P : Plugin α σ} {behind : Behind α}

-- ════════════════════════════════════════════════════════════════════════
-- The strings
-- ════════════════════════════════════════════════════════════════════════

theorem hasNul_iff {s : String} : HasNul s ↔ nul ∈ s.toList := CStr.zero_mem_encode

theorem makeCstring_eq_ok {field value : String} {s : CString} :
    makeCstring field value = .ok s ↔ ¬ HasNul value ∧ s.chars = value.toList := by
  rw [hasNul_iff, makeCstring]
  split
  · next hfree =>
    constructor
    · intro h
      cases h
      exact ⟨hfree, rfl⟩
    · rintro ⟨-, hchars⟩
      exact congrArg Except.ok (Subtype.ext hchars.symm)
  · next hnul =>
    exact iff_of_false nofun fun h => hnul h.1

/-- **A text comes back** from its C string. -/
theorem readText_eq {s : CString} {value : String} (h : s.chars = value.toList) :
    readText behind s = some value := by
  have hfree : 0 ∉ CStr.encode s.chars := fun hmem => s.2 (CStr.zero_mem_encode.mp hmem)
  rw [readText, CStr.read_append hfree, h, CStr.decode_encode]

/-- The pass over the port names. -/
theorem mapM_makeCstring_eq_ok {ports : List (PortDescriptor α)} {names : List CString} :
    (ports.mapM fun p => makeCstring "port name" p.name) = .ok names ↔
      (∀ p ∈ ports, ¬ HasNul p.name) ∧
        names.map CString.chars = ports.map fun p => p.name.toList := by
  induction ports generalizing names with
  | nil =>
    rw [List.mapM_nil]
    constructor
    · intro h
      cases h
      exact ⟨nofun, rfl⟩
    · rintro ⟨-, h⟩
      rw [List.map_eq_nil_iff.mp h]
      rfl
  | cons p ports ih =>
    rw [List.mapM_cons, Port.bind_eq_ok]
    simp only [Port.bind_eq_ok, ih, makeCstring_eq_ok, List.forall_mem_cons]
    constructor
    · rintro ⟨s, ⟨hfree, hs⟩, rest, ⟨hrest, hnames⟩, heq⟩
      cases heq
      refine ⟨⟨hfree, hrest⟩, ?_⟩
      exact List.cons_eq_cons.mpr ⟨hs, hnames⟩
    · rintro ⟨⟨hfree, hrest⟩, hnames⟩
      cases names with
      | nil => cases hnames
      | cons s rest =>
        obtain ⟨hs, hnames⟩ := List.cons.inj hnames
        exact ⟨s, ⟨hfree, hs⟩, rest, ⟨hrest, hnames⟩, rfl⟩

theorem exists_makeCstring (field : String) {value : String} (h : ¬ HasNul value) :
    ∃ s, makeCstring field value = .ok s := by
  rw [hasNul_iff] at h
  exact ⟨⟨value.toList, h⟩, dif_pos h⟩

theorem exists_mapM_makeCstring {ports : List (PortDescriptor α)}
    (h : ∀ p ∈ ports, ¬ HasNul p.name) :
    ∃ names, (ports.mapM fun p => makeCstring "port name" p.name) = .ok names := by
  induction ports with
  | nil => exact ⟨[], rfl⟩
  | cons p ports ih =>
    obtain ⟨hp, hports⟩ := List.forall_mem_cons.mp h
    obtain ⟨s, hs⟩ := exists_makeCstring "port name" hp
    obtain ⟨names, hnames⟩ := ih hports
    refine ⟨s :: names, ?_⟩
    rw [List.mapM_cons, hs, hnames]
    rfl

/-- What `build` publishes. -/
structure Publishes (P : Plugin α σ) (d : Descriptor α) : Prop where
  uniqueId : d.uniqueId = P.uniqueId.setWidth 64
  label : d.label.chars = P.label.toList
  properties : d.properties = P.properties
  name : d.name.chars = P.name.toList
  maker : d.maker.chars = P.maker.toList
  copyright : d.copyright.chars = P.copyright.toList
  portCount : d.portCount = P.ports.length
  portDescriptors : d.portDescriptors = P.ports.map fun p => p.kind.ladspaBits
  portNames : d.portNames.map CString.chars = P.ports.map fun p => p.name.toList
  portRangeHints : d.portRangeHints = P.ports.map fun p =>
    { hintDescriptor := p.hints.descriptor
      lowerBound := p.hints.lower
      upperBound := p.hints.upper }

theorem publishes_of_build {d : Descriptor α} (h : P.build = .ok d) :
    Publishes P d ∧ ∀ s ∈ P.texts, ¬ HasNul s := by
  obtain ⟨label, hlabel, h⟩ := Port.bind_eq_ok.mp h
  obtain ⟨name, hname, h⟩ := Port.bind_eq_ok.mp h
  obtain ⟨maker, hmaker, h⟩ := Port.bind_eq_ok.mp h
  obtain ⟨copyright, hcopyright, h⟩ := Port.bind_eq_ok.mp h
  obtain ⟨portNames, hportNames, h⟩ := Port.bind_eq_ok.mp h
  cases h
  obtain ⟨hlabel', hlabel⟩ := makeCstring_eq_ok.mp hlabel
  obtain ⟨hname', hname⟩ := makeCstring_eq_ok.mp hname
  obtain ⟨hmaker', hmaker⟩ := makeCstring_eq_ok.mp hmaker
  obtain ⟨hcopyright', hcopyright⟩ := makeCstring_eq_ok.mp hcopyright
  obtain ⟨hports, hportNames⟩ := mapM_makeCstring_eq_ok.mp hportNames
  refine ⟨⟨rfl, hlabel, rfl, hname, hmaker, hcopyright, rfl, rfl, hportNames, rfl⟩, ?_⟩
  simp only [Plugin.texts, List.cons_append, List.nil_append, List.forall_mem_cons,
    List.forall_mem_map]
  exact ⟨hlabel', hname', hmaker', hcopyright', hports⟩

/-- `build` succeeds when no text has a zero byte. -/
theorem build_of_texts (h : ∀ s ∈ P.texts, ¬ HasNul s) : ∃ d, P.build = .ok d := by
  simp only [Plugin.texts, List.cons_append, List.nil_append, List.forall_mem_cons,
    List.forall_mem_map] at h
  obtain ⟨hlabel, hname, hmaker, hcopyright, hports⟩ := h
  obtain ⟨label, hlabel⟩ := exists_makeCstring "LABEL" hlabel
  obtain ⟨name, hname⟩ := exists_makeCstring "NAME" hname
  obtain ⟨maker, hmaker⟩ := exists_makeCstring "MAKER" hmaker
  obtain ⟨copyright, hcopyright⟩ := exists_makeCstring "COPYRIGHT" hcopyright
  obtain ⟨names, hnames⟩ := exists_mapM_makeCstring hports
  exact ⟨_, Port.bind_eq_ok.mpr ⟨label, hlabel, Port.bind_eq_ok.mpr ⟨name, hname,
    Port.bind_eq_ok.mpr ⟨maker, hmaker, Port.bind_eq_ok.mpr ⟨copyright, hcopyright,
      Port.bind_eq_ok.mpr ⟨names, hnames, rfl⟩⟩⟩⟩⟩⟩

-- ════════════════════════════════════════════════════════════════════════
-- The ports
-- ════════════════════════════════════════════════════════════════════════

/-- Reading the entries of a list from an index on. -/
theorem mapM_range' {β : Type} {f : ℕ → Option β} {xs : List β} {k : ℕ}
    (h : ∀ i < xs.length, f (k + i) = xs[i]?) :
    (List.range' k xs.length).mapM f = some xs := by
  induction xs generalizing k with
  | nil => rfl
  | cons x xs ih =>
    have hfirst : f k = some x := h 0 (Nat.succ_pos _)
    have hrest : (List.range' (k + 1) xs.length).mapM f = some xs := by
      refine ih fun i hi => ?_
      rw [Nat.add_right_comm]
      exact h (i + 1) (Nat.succ_lt_succ hi)
    rw [List.length_cons, List.range'_succ, List.mapM_cons, hfirst, hrest]
    rfl

/-- Entries of an array are not those behind it. -/
theorem getElem?_append_map {β γ : Type} {xs : List β} {i : ℕ} {x : β} (h : xs[i]? = some x)
    (f : β → γ) (ys : List γ) : (xs.map f ++ ys)[i]? = some (f x) := by
  have hi : i < xs.length := (List.getElem?_eq_some_iff.mp h).1
  rw [List.getElem?_append_left (by rwa [List.length_map]), List.getElem?_map, h]
  rfl

/-- **One port**: the three arrays agree on the index. -/
theorem Publishes.readPort {d : Descriptor α} (h : Publishes P d) {i : ℕ}
    (hi : i < P.ports.length) : d.readPort behind i = P.ports[i]? := by
  have hp : P.ports[i]? = some P.ports[i] := List.getElem?_eq_getElem hi
  have hlength : d.portNames.length = P.ports.length := by
    rw [← List.length_map (f := CString.chars), h.portNames, List.length_map]
  have hname : (d.portNames ++ behind.portNames)[i]? = some d.portNames[i] := by
    rw [List.getElem?_append_left (hlength ▸ hi), List.getElem?_eq_getElem (hlength ▸ hi)]
  have hchars : d.portNames[i].chars = P.ports[i].name.toList := by
    have hget := congrArg (fun names => names[i]?) h.portNames
    simp only [List.getElem?_map, List.getElem?_eq_getElem hi,
      List.getElem?_eq_getElem (hlength ▸ hi), Option.map_some] at hget
    exact Option.some.inj hget
  unfold Descriptor.readPort
  rw [h.portDescriptors, getElem?_append_map hp, hname, h.portRangeHints,
    getElem?_append_map hp, hp]
  simp only [bind, Option.bind, kindOfBits_ladspaBits, readText_eq hchars]
  rfl

/-- **A host reads back** what the plugin declares. -/
theorem Publishes.read {d : Descriptor α} (h : Publishes P d) :
    d.read behind = some
      { uniqueId := P.uniqueId.toNat
        label := P.label
        properties := P.properties
        name := P.name
        maker := P.maker
        copyright := P.copyright
        ports := P.ports } := by
  have hports : (List.range d.portCount).mapM (d.readPort behind) = some P.ports := by
    rw [h.portCount, List.range_eq_range']
    refine mapM_range' fun i hi => ?_
    rw [Nat.zero_add]
    exact h.readPort hi
  have hid : d.uniqueId.toNat = P.uniqueId.toNat := by
    rw [h.uniqueId, BitVec.toNat_setWidth]
    exact Nat.mod_eq_of_lt (lt_of_lt_of_le P.uniqueId.isLt (by decide))
  unfold Descriptor.read
  rw [readText_eq h.label, readText_eq h.name, readText_eq h.maker, readText_eq h.copyright,
    hports, hid, h.properties]
  rfl

/-- **Descriptor round trip**: `build` panics exactly when a text has a zero byte, and
otherwise a host reads the plugin's identity and its port table back, whatever lies behind
the strings and the arrays. -/
theorem round_trip (P : Plugin α σ) (behind : Behind α) :
    ((∃ e, P.build = .error e) ↔ ∃ s ∈ P.texts, HasNul s) ∧
      ((∀ s ∈ P.texts, ¬ HasNul s) → ∃ d, P.build = .ok d ∧
        d.portCount = P.ports.length ∧ d.portDescriptors.length = P.ports.length ∧
        d.portNames.length = P.ports.length ∧ d.portRangeHints.length = P.ports.length ∧
        d.read behind = some
          { uniqueId := P.uniqueId.toNat
            label := P.label
            properties := P.properties
            name := P.name
            maker := P.maker
            copyright := P.copyright
            ports := P.ports }) := by
  constructor
  · constructor
    · rintro ⟨e, he⟩
      by_contra hnone
      have hfree : ∀ s ∈ P.texts, ¬ HasNul s := fun s hs hnul => hnone ⟨s, hs, hnul⟩
      obtain ⟨d, hd⟩ := build_of_texts hfree
      rw [he] at hd
      cases hd
    · rintro ⟨s, hs, hnul⟩
      cases hbuild : P.build with
      | error e => exact ⟨e, rfl⟩
      | ok d => exact absurd hnul ((publishes_of_build hbuild).2 s hs)
  · intro hfree
    obtain ⟨d, hd⟩ := build_of_texts hfree
    have hpublishes := (publishes_of_build hd).1
    refine ⟨d, hd, hpublishes.portCount, ?_, ?_, ?_, hpublishes.read⟩
    · rw [hpublishes.portDescriptors, List.length_map]
    · rw [← List.length_map (f := CString.chars), hpublishes.portNames, List.length_map]
    · rw [hpublishes.portRangeHints, List.length_map]

/-- The gain plugin, with zeros behind its strings and nothing behind its arrays. -/
theorem round_trip_gain :
    (∀ s ∈ (Gain.plugin : Plugin ℕ Unit).texts, ¬ HasNul s) ∧
      ∃ d, (Gain.plugin : Plugin ℕ Unit).build = .ok d ∧
        d.read ⟨fun _ => [0], [], [], []⟩ = some
          { uniqueId := 12345
            label := "tympan_gain"
            properties := 0#32
            name := "Tympan Linear Gain"
            maker := "tympan-ladspa"
            copyright := "MIT OR Apache-2.0"
            ports := Gain.ports } := by
  have hfree : ∀ s ∈ (Gain.plugin : Plugin ℕ Unit).texts, ¬ HasNul s := by decide
  obtain ⟨d, hd, -, -, -, -, hread⟩ :=
    (round_trip (Gain.plugin : Plugin ℕ Unit) ⟨fun _ => [0], [], [], []⟩).2 hfree
  exact ⟨hfree, d, hd, hread⟩

end Entry
