import TympanLadspa.Entry.RoundTrip
import TympanLadspa.Foundations.Alloc
import Mathlib.Data.Multiset.AddSub
import Mathlib.Tactic.Abel

/-!
# The bundle behind a descriptor

`DescriptorBundle::build` with the blocks it allocates: C strings and boxed slices, and a
descriptor that points into them. It builds when the descriptor of the plugin can be built, with
the same panic when not, and a host that follows the pointers finds the plugin.
-/

namespace Entry

open Port (PortDescriptor)
open Alloc (Heap Content Owns Yields Takes)

variable {α σ κ : Type}

/-- The address of a block; zero is NULL. -/
abbrev Addr := ℕ

/-- What `build` allocates: the bytes of a C string, or the entries of a boxed slice. -/
inductive Block (α : Type)
  | text (bytes : List UInt8)
  | strings (entries : List Addr)
  | portDescriptors (entries : List Raw.PortDescriptor)
  | portNames (entries : List Addr)
  | portRangeHints (entries : List (PortRangeHint α))

/-- `Callbacks`, for any kind of function pointers. -/
structure Callbacks (κ : Type) where
  instantiate : κ
  connectPort : κ
  run : κ
  cleanup : κ
  activate : Option κ
  deactivate : Option κ

/-- `raw::Descriptor`, with its pointers. -/
structure RawDescriptor (κ : Type) where
  uniqueId : BitVec 64
  label : Addr
  properties : Raw.Properties
  name : Addr
  maker : Addr
  copyright : Addr
  portCount : ℕ
  portDescriptors : Addr
  portNames : Addr
  portRangeHints : Addr
  implementationData : Addr
  instantiate : Option κ
  connectPort : Option κ
  activate : Option κ
  run : Option κ
  runAdding : Option κ
  setRunAddingGain : Option κ
  deactivate : Option κ
  cleanup : Option κ

/-- A boxed slice: where it is, and how many entries it has. -/
structure Boxed where
  ptr : Addr
  len : ℕ

/-- `DescriptorBundle`. -/
structure Bundle (κ : Type) where
  descriptor : RawDescriptor κ
  portDescriptors : Boxed
  portNames : Boxed
  portRangeHints : Boxed
  portNameStrings : Boxed
  /-- The strings that the entries of `portNameStrings` own. -/
  nameStrings : List Addr
  label : Addr
  name : Addr
  maker : Addr
  copyright : Addr

/-- A program of `build`. -/
abbrev BuildProg (α κ : Type) := AllocProg (Block α) EmbeddedNul (Bundle κ)

/-- The bytes of a `CString`. -/
def CString.bytes (s : CString) : List UInt8 := CStr.encode s.chars ++ [0]

/-- `make_cstring`, and the block of the string. -/
def cstring (field value : String) (next : Addr → BuildProg α κ) : BuildProg α κ :=
  match makeCstring field value with
  | .error e => .fail e
  | .ok s => .alloc (.text s.bytes) next

/-- The `CString` of each port name. -/
def cstrings : List (PortDescriptor α) → (List Addr → BuildProg α κ) → BuildProg α κ
  | [], next => next []
  | p :: ps, next =>
    cstring "port name" p.name fun s => cstrings ps fun ss => next (s :: ss)

/-- The collecting of a boxed slice. An empty one has no block, and its pointer dangles: it is
the alignment of an entry. -/
def boxed {γ : Type} (align : Addr) (block : List γ → Block α) (entries : List γ)
    (next : Boxed → BuildProg α κ) : BuildProg α κ :=
  match entries with
  | [] => next ⟨align, 0⟩
  | e :: es => .alloc (block (e :: es)) fun ptr => next ⟨ptr, es.length + 1⟩

/-- `DescriptorBundle::build`. -/
def Plugin.bundle (P : Plugin α σ) (callbacks : Callbacks κ) : BuildProg α κ :=
  cstring "LABEL" P.label fun label =>
  cstring "NAME" P.name fun name =>
  cstring "MAKER" P.maker fun maker =>
  cstring "COPYRIGHT" P.copyright fun copyright =>
  boxed 4 .portDescriptors (P.ports.map fun p => p.kind.ladspaBits) fun portDescriptors =>
  cstrings P.ports fun nameStrings =>
  boxed 8 .strings nameStrings fun portNameStrings =>
  boxed 8 .portNames nameStrings fun portNames =>
  boxed 4 .portRangeHints (P.ports.map fun p =>
    { hintDescriptor := p.hints.descriptor
      lowerBound := p.hints.lower
      upperBound := p.hints.upper }) fun portRangeHints =>
  .done
    { descriptor :=
        { uniqueId := P.uniqueId.setWidth 64
          label := label
          properties := P.properties
          name := name
          maker := maker
          copyright := copyright
          portCount := P.ports.length
          portDescriptors := portDescriptors.ptr
          portNames := portNames.ptr
          portRangeHints := portRangeHints.ptr
          implementationData := Alloc.null
          instantiate := some callbacks.instantiate
          connectPort := some callbacks.connectPort
          activate := callbacks.activate
          run := some callbacks.run
          runAdding := none
          setRunAddingGain := none
          deactivate := callbacks.deactivate
          cleanup := some callbacks.cleanup }
      portDescriptors := portDescriptors
      portNames := portNames
      portRangeHints := portRangeHints
      portNameStrings := portNameStrings
      nameStrings := nameStrings
      label := label
      name := name
      maker := maker
      copyright := copyright }

/-- The block that goes with a boxed slice. -/
def Boxed.freed (b : Boxed) : List Addr := if b.len = 0 then [] else [b.ptr]

/-- The blocks that a bundle frees when it is dropped, field by field. -/
def Bundle.freed (b : Bundle κ) : List Addr :=
  b.portDescriptors.freed ++ b.portNames.freed ++ b.portRangeHints.freed ++
    (b.nameStrings ++ b.portNameStrings.freed) ++ [b.label, b.name, b.maker, b.copyright]

-- ════════════════════════════════════════════════════════════════════════
-- Following the pointers
-- ════════════════════════════════════════════════════════════════════════

/-- The text at a `char *`; reading stops at the first zero byte, and not before the block
does. -/
def textAt (heap : Heap (Block α)) (ptr : Addr) : Option String :=
  match heap ptr with
  | some (.block (.text bytes)) => if 0 ∈ bytes then CStr.decode (CStr.read bytes) else none
  | _ => none

/-- Entry `i` of the three arrays of a descriptor, as one port. -/
def RawDescriptor.readPort (d : RawDescriptor κ) (heap : Heap (Block α)) (i : ℕ) :
    Option (PortDescriptor α) :=
  match heap d.portDescriptors, heap d.portNames, heap d.portRangeHints with
  | some (.block (.portDescriptors bits)), some (.block (.portNames names)),
    some (.block (.portRangeHints hints)) => do
    let kind ← bits[i]? >>= kindOfBits
    let text ← names[i]? >>= textAt heap
    let hint ← hints[i]?
    return {
      name := text
      kind := kind
      hints :=
        { descriptor := hint.hintDescriptor
          lower := hint.lowerBound
          upper := hint.upperBound } }
  | _, _, _ => none

/-- A host reads a descriptor. -/
def RawDescriptor.read (d : RawDescriptor κ) (heap : Heap (Block α)) : Option (Reading α) := do
  let label ← textAt heap d.label
  let name ← textAt heap d.name
  let maker ← textAt heap d.maker
  let copyright ← textAt heap d.copyright
  let ports ← (List.range d.portCount).mapM (d.readPort heap)
  return {
    uniqueId := d.uniqueId.toNat
    label := label
    properties := d.properties
    name := name
    maker := maker
    copyright := copyright
    ports := ports }

/-- The function pointers of a descriptor are those it was built with; the two that would add to
an output are unset. -/
structure RawDescriptor.CallsBack (d : RawDescriptor κ) (callbacks : Callbacks κ) : Prop where
  instantiate : d.instantiate = some callbacks.instantiate
  connectPort : d.connectPort = some callbacks.connectPort
  activate : d.activate = callbacks.activate
  run : d.run = some callbacks.run
  runAdding : d.runAdding = none
  setRunAddingGain : d.setRunAddingGain = none
  deactivate : d.deactivate = callbacks.deactivate
  cleanup : d.cleanup = some callbacks.cleanup

/-- What a host is to know of a plugin. -/
def Plugin.reading (P : Plugin α σ) : Reading α where
  uniqueId := P.uniqueId.toNat
  label := P.label
  properties := P.properties
  name := P.name
  maker := P.maker
  copyright := P.copyright
  ports := P.ports

/-- What `build` comes to, of the blocks it has then. -/
def Plugin.Bundles (P : Plugin α σ) (callbacks : Callbacks κ) (owned : List (Addr × Block α)) :
    Except EmbeddedNul (Bundle κ) → Prop
  | .ok b =>
    (∃ d, P.build = .ok d) ∧ b.descriptor.CallsBack callbacks ∧
      b.freed.Perm (owned.map Prod.fst) ∧
      ∀ heap, Owns heap owned → b.descriptor.read heap = some P.reading
  | .error e => P.build = .error e

-- ════════════════════════════════════════════════════════════════════════
-- What each part of `build` comes to
-- ════════════════════════════════════════════════════════════════════════

variable {post : List (Addr × Block α) → Except EmbeddedNul (Bundle κ) → Prop}
  {owned : List (Addr × Block α)} {heap : Heap (Block α)}

theorem yields_cstring {field value : String} {next : Addr → BuildProg α κ}
    (hfail : ∀ e, makeCstring field value = .error e → post owned (.error e))
    (hnext : ∀ s a, makeCstring field value = .ok s →
      Yields post (next a) ((a, .text s.bytes) :: owned)) :
    Yields post (cstring field value next) owned := by
  unfold cstring
  cases hmake : makeCstring field value with
  | error e => exact hfail e hmake
  | ok s => exact fun a _ _ => hnext s a hmake

/-- The blocks of a boxed slice: one with its entries, or none when there are none. -/
structure Boxed.Holds {γ : Type} (b : Boxed) (block : List γ → Block α) (entries : List γ)
    (blocks : List (Addr × Block α)) : Prop where
  freed : b.freed = blocks.map Prod.fst
  mem : entries ≠ [] → (b.ptr, block entries) ∈ blocks

theorem yields_boxed {γ : Type} {align : Addr} {block : List γ → Block α} {entries : List γ}
    {next : Boxed → BuildProg α κ}
    (hnext : ∀ b blocks, b.Holds block entries blocks → Yields post (next b) (blocks ++ owned)) :
    Yields post (boxed align block entries next) owned := by
  cases entries with
  | nil => exact hnext ⟨align, 0⟩ [] ⟨rfl, fun h => absurd rfl h⟩
  | cons e es =>
    intro a _ _
    exact hnext ⟨a, es.length + 1⟩ [(a, block (e :: es))] ⟨rfl, fun _ => List.mem_singleton_self _⟩

/-- There is a C string of the value at the address. -/
def IsText (blocks : List (Addr × Block α)) (field value : String) (a : Addr) : Prop :=
  ∃ s, makeCstring field value = .ok s ∧ (a, .text s.bytes) ∈ blocks

theorem IsText.mono {blocks blocks' : List (Addr × Block α)} {field value : String} {a : Addr}
    (hsub : blocks ⊆ blocks') (h : IsText blocks field value a) :
    IsText blocks' field value a := by
  obtain ⟨s, hmake, hmem⟩ := h
  exact ⟨s, hmake, hsub hmem⟩

/-- The pass over the port names: it stops at the first that cannot be made a C string. -/
theorem yields_cstrings {ports : List (PortDescriptor α)} {next : List Addr → BuildProg α κ}
    (hfail : ∀ owned e, (ports.mapM fun p => makeCstring "port name" p.name) = .error e →
      post owned (.error e))
    (hnext : ∀ names as blocks,
      (ports.mapM fun p => makeCstring "port name" p.name) = .ok names →
      List.Forall₂ (fun a p => IsText blocks "port name" p.name a) as ports →
      as.Perm (blocks.map Prod.fst) → Yields post (next as) (blocks ++ owned)) :
    Yields post (cstrings ports next) owned := by
  induction ports generalizing owned next with
  | nil => exact hnext [] [] [] rfl .nil .rfl
  | cons p ports ih =>
    refine yields_cstring (fun e he => hfail owned e ?_) fun s a hmake => ?_
    · rw [List.mapM_cons, he]
      rfl
    refine ih (fun owned' e he => hfail owned' e ?_) fun names as blocks hnames hall hperm => ?_
    · rw [List.mapM_cons, hmake, he]
      rfl
    · have hsub : blocks ⊆ blocks ++ [(a, .text s.bytes)] := List.subset_append_left _ _
      have hyields := hnext (s :: names) (a :: as) (blocks ++ [(a, .text s.bytes)])
        (by rw [List.mapM_cons, hmake, hnames]; rfl)
        (.cons ⟨s, hmake, List.mem_append_right _ (List.mem_singleton_self _)⟩
          (hall.imp fun _ _ h => h.mono hsub))
        (by
          rw [List.map_append]
          exact (hperm.cons a).trans (List.perm_append_singleton _ _).symm)
      rwa [List.append_assoc] at hyields

/-- **A C string is read back** through its pointer. -/
theorem textAt_eq {field value : String} {a : Addr} (howns : Owns heap owned)
    (h : IsText owned field value a) : textAt heap a = some value := by
  obtain ⟨s, hmake, hmem⟩ := h
  obtain ⟨-, hchars⟩ := makeCstring_eq_ok.mp hmake
  have hfree : 0 ∉ CStr.encode s.chars := fun hzero => s.2 (CStr.zero_mem_encode.mp hzero)
  have hend : 0 ∈ s.bytes := List.mem_append_right _ (List.mem_singleton_self 0)
  unfold textAt
  rw [(howns.block_iff a _).mpr hmem]
  simp only [if_pos hend]
  rw [CString.bytes, CStr.read_append hfree, hchars, CStr.decode_encode]

/-- **One port** is read back through the three arrays. -/
theorem readPort_eq {P : Plugin α σ} {d : RawDescriptor κ} {as : List Addr}
    (howns : Owns heap owned) {i : ℕ} (hi : i < P.ports.length)
    (hbits : (d.portDescriptors, .portDescriptors (P.ports.map fun p => p.kind.ladspaBits)) ∈
      owned)
    (hnames : (d.portNames, .portNames as) ∈ owned)
    (hhints : (d.portRangeHints, .portRangeHints (P.ports.map fun p =>
      { hintDescriptor := p.hints.descriptor
        lowerBound := p.hints.lower
        upperBound := p.hints.upper })) ∈ owned)
    (hall : List.Forall₂ (fun a p => IsText owned "port name" p.name a) as P.ports) :
    d.readPort heap i = P.ports[i]? := by
  have hlength := hall.length_eq
  have hport : P.ports[i]? = some P.ports[i] := List.getElem?_eq_getElem hi
  have hname : as[i]? = some as[i] := List.getElem?_eq_getElem (hlength ▸ hi)
  have htext := textAt_eq howns (hall.get (hlength ▸ hi) hi)
  simp only [List.get_eq_getElem] at htext
  unfold RawDescriptor.readPort
  rw [(howns.block_iff _ _).mpr hbits, (howns.block_iff _ _).mpr hnames,
    (howns.block_iff _ _).mpr hhints, hport]
  simp only [List.getElem?_map, hport, hname, Option.map_some, bind, Option.bind,
    kindOfBits_ladspaBits, htext]
  rfl

/-- The blocks of a bundle are those it frees. -/
theorem perm_freed {bits names hints strings blocks : List (Addr × Block α)}
    {as : List Addr} {label name maker copyright : Addr} {b₁ b₂ b₃ b₄ : Block α}
    (hperm : as.Perm (blocks.map Prod.fst)) :
    (bits.map Prod.fst ++ names.map Prod.fst ++ hints.map Prod.fst ++
        (as ++ strings.map Prod.fst) ++ [label, name, maker, copyright]).Perm
      ((hints ++ (names ++ (strings ++ (blocks ++ (bits ++
        [(copyright, b₁), (maker, b₂), (name, b₃), (label, b₄)]))))).map Prod.fst) := by
  rw [← Multiset.coe_eq_coe] at hperm ⊢
  simp only [List.map_append, ← Multiset.coe_add, hperm, List.map_cons, List.map_nil,
    ← Multiset.cons_coe, Multiset.coe_nil]
  simp only [← Multiset.singleton_add]
  abel

/-- What the blocks of a bundle are, for its descriptor. -/
structure RawDescriptor.Points (d : RawDescriptor κ) (P : Plugin α σ)
    (owned : List (Addr × Block α)) : Prop where
  uniqueId : d.uniqueId = P.uniqueId.setWidth 64
  label : IsText owned "LABEL" P.label d.label
  properties : d.properties = P.properties
  name : IsText owned "NAME" P.name d.name
  maker : IsText owned "MAKER" P.maker d.maker
  copyright : IsText owned "COPYRIGHT" P.copyright d.copyright
  portCount : d.portCount = P.ports.length
  ports : P.ports ≠ [] → ∃ as,
    (d.portDescriptors, .portDescriptors (P.ports.map fun p => p.kind.ladspaBits)) ∈ owned ∧
      (d.portNames, .portNames as) ∈ owned ∧
      (d.portRangeHints, .portRangeHints (P.ports.map fun p =>
        { hintDescriptor := p.hints.descriptor
          lowerBound := p.hints.lower
          upperBound := p.hints.upper })) ∈ owned ∧
      List.Forall₂ (fun a p => IsText owned "port name" p.name a) as P.ports

/-- **A host reads back** the plugin, wherever the blocks are. -/
theorem RawDescriptor.Points.read {d : RawDescriptor κ} {P : Plugin α σ} (h : d.Points P owned)
    (howns : Owns heap owned) : d.read heap = some P.reading := by
  have hports : (List.range d.portCount).mapM (d.readPort heap) = some P.ports := by
    rw [h.portCount, List.range_eq_range']
    refine mapM_range' fun i hi => ?_
    obtain ⟨as, hbits, hnames, hhints, hall⟩ := h.ports (List.ne_nil_of_length_pos (by omega))
    rw [Nat.zero_add]
    exact readPort_eq howns hi hbits hnames hhints hall
  have hid : d.uniqueId.toNat = P.uniqueId.toNat := by
    rw [h.uniqueId, BitVec.toNat_setWidth]
    exact Nat.mod_eq_of_lt (lt_of_lt_of_le P.uniqueId.isLt (by decide))
  unfold RawDescriptor.read
  rw [textAt_eq howns h.label, textAt_eq howns h.name, textAt_eq howns h.maker,
    textAt_eq howns h.copyright, hports, hid, h.properties]
  rfl

/-- **The bundle refines the descriptor.** -/
theorem Plugin.bundle_yields (P : Plugin α σ) (callbacks : Callbacks κ) :
    Yields (P.Bundles callbacks) (P.bundle callbacks) [] := by
  refine yields_cstring (fun e he => ?_) fun sl label hlabel => ?_
  · show P.build = .error e
    simp only [Plugin.build, he]
    rfl
  refine yields_cstring (fun e he => ?_) fun sn name hname => ?_
  · show P.build = .error e
    simp only [Plugin.build, hlabel, he]
    rfl
  refine yields_cstring (fun e he => ?_) fun sm maker hmaker => ?_
  · show P.build = .error e
    simp only [Plugin.build, hlabel, hname, he]
    rfl
  refine yields_cstring (fun e he => ?_) fun sc copyright hcopyright => ?_
  · show P.build = .error e
    simp only [Plugin.build, hlabel, hname, hmaker, he]
    rfl
  refine yields_boxed fun bits bitsBlocks hbits => ?_
  refine yields_cstrings (fun _ e he => ?_) fun names as blocks hnames hall hperm => ?_
  · show P.build = .error e
    simp only [Plugin.build, hlabel, hname, hmaker, hcopyright, he]
    rfl
  refine yields_boxed fun strings stringsBlocks hstrings => ?_
  refine yields_boxed fun arr arrBlocks harr => ?_
  refine yields_boxed fun hints hintsBlocks hhints => ?_
  have hbuild : ∃ d, P.build = .ok d := by
    simp only [Plugin.build, hlabel, hname, hmaker, hcopyright, hnames]
    exact ⟨_, rfl⟩
  refine ⟨hbuild, ⟨rfl, rfl, rfl, rfl, rfl, rfl, rfl, rfl⟩, ?_, fun heap howns => ?_⟩
  · simp only [Bundle.freed, hbits.freed, hstrings.freed, harr.freed, hhints.freed]
    exact perm_freed hperm
  · have hboxed : P.ports ≠ [] → ∀ {γ : Type} (f : PortDescriptor α → γ), P.ports.map f ≠ [] :=
      fun hports _ f hnil => hports (List.map_eq_nil_iff.mp hnil)
    refine RawDescriptor.Points.read (P := P) ?_ howns
    exact
      { uniqueId := rfl
        label := ⟨sl, hlabel, by simp⟩
        properties := rfl
        name := ⟨sn, hname, by simp⟩
        maker := ⟨sm, hmaker, by simp⟩
        copyright := ⟨sc, hcopyright, by simp⟩
        portCount := rfl
        ports := by
          intro hports
          have has : as ≠ [] := by
            rintro rfl
            exact hports (List.length_eq_zero_iff.mp hall.length_eq.symm)
          have hbits := hbits.mem (hboxed hports _)
          have harr := harr.mem has
          have hhints := hhints.mem (hboxed hports _)
          refine ⟨as, by simp [hbits], by simp [harr], by simp [hhints], ?_⟩
          exact hall.imp fun a p hp => hp.mono fun x hx => by simp [hx] }

theorem takes_cstring {field value : String} {next : Addr → BuildProg α κ} {n : ℕ}
    (h : ∀ a, Takes (next a) n) : Takes (cstring field value next) (n + 1) := by
  unfold cstring
  cases makeCstring field value with
  | error e => trivial
  | ok s => exact h

theorem takes_boxed {γ : Type} {align : Addr} {block : List γ → Block α} {entries : List γ}
    {next : Boxed → BuildProg α κ} {n : ℕ} (h : ∀ b, Takes (next b) n) :
    Takes (boxed align block entries next) (n + 1) := by
  cases entries with
  | nil => exact (h _).succ
  | cons e es => exact fun a => h _

theorem takes_cstrings {ports : List (PortDescriptor α)} {next : List Addr → BuildProg α κ}
    {n : ℕ} (h : ∀ as, Takes (next as) n) : Takes (cstrings ports next) (n + ports.length) := by
  induction ports generalizing next with
  | nil => exact h []
  | cons p ports ih =>
    rw [List.length_cons, ← Nat.add_assoc]
    exact takes_cstring fun a => ih fun as => h (a :: as)

/-- The blocks of a bundle: one for each text and each array, and one for the array of names. -/
theorem Plugin.bundle_takes (P : Plugin α σ) (callbacks : Callbacks κ) :
    Takes (P.bundle callbacks) (P.ports.length + 8) := by
  rw [show P.ports.length + 8 = 0 + 1 + 1 + 1 + P.ports.length + 1 + 1 + 1 + 1 + 1 by omega]
  refine takes_cstring fun _ => takes_cstring fun _ => takes_cstring fun _ =>
    takes_cstring fun _ => takes_boxed fun _ => takes_cstrings fun _ => ?_
  exact takes_boxed fun _ => takes_boxed fun _ => takes_boxed fun _ => trivial

end Entry
