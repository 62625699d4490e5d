import TympanLadspa.Foundations.Flags
import TympanLadspa.Port.Descriptor

/-!
# Chains of builder methods

What a chain of builder calls leaves in a descriptor. Every builder ors its bits into one
word: the flags come out right in any chain, the default only when each code written is
contained in the last one.
-/

namespace Port

open Flags (union Within)

variable {α : Type*}

/-- One call of a builder method. -/
inductive Builder (α : Type*)
  | withBounds (lower upper : α)
  | withDefault (default : PortDefault)
  | integer
  | toggled
  | logarithmic
  | sampleRate
deriving Repr, DecidableEq

namespace Builder

def apply (p : PortDescriptor α) : Builder α → PortDescriptor α
  | withBounds lower upper => p.withBounds lower upper
  | withDefault default => p.withDefault default
  | integer => p.integer
  | toggled => p.toggled
  | logarithmic => p.logarithmic
  | sampleRate => p.sampleRate

/-- The bits a call ors into the hint word. -/
def bits : Builder α → Raw.PortRangeHintDescriptor
  | withBounds _ _ => Raw.hintBoundedBelow ||| Raw.hintBoundedAbove
  | withDefault default => default.bits
  | integer => Raw.hintInteger
  | toggled => Raw.hintToggled
  | logarithmic => Raw.hintLogarithmic
  | sampleRate => Raw.hintSampleRate

def bounds? : Builder α → Option (α × α)
  | withBounds lower upper => some (lower, upper)
  | _ => none

def default? : Builder α → Option PortDefault
  | withDefault default => some default
  | _ => none

end Builder

/-- A chain of calls, first one first. -/
def chain (p : PortDescriptor α) (bs : List (Builder α)) : PortDescriptor α :=
  bs.foldl Builder.apply p

/-- The defaults a chain sets, in order. -/
def defaults (bs : List (Builder α)) : List PortDefault := bs.filterMap Builder.default?

/-- The bounds a chain sets, in order. -/
def bounds (bs : List (Builder α)) : List (α × α) := bs.filterMap Builder.bounds?

theorem chain_append (p : PortDescriptor α) (bs cs : List (Builder α)) :
    chain p (bs ++ cs) = chain (chain p bs) cs := List.foldl_append

theorem apply_descriptor (p : PortDescriptor α) (b : Builder α) :
    (b.apply p).hints.descriptor = p.hints.descriptor ||| b.bits := by
  cases b <;> rfl

theorem apply_bounds (p : PortDescriptor α) (b : Builder α) :
    ((b.apply p).hints.lower, (b.apply p).hints.upper) =
      b.bounds?.getD (p.hints.lower, p.hints.upper) := by
  cases b <;> rfl

/-- The hint word of a chain is the union of the bits of its calls. -/
theorem chain_descriptor (p : PortDescriptor α) (bs : List (Builder α)) :
    (chain p bs).hints.descriptor = p.hints.descriptor ||| union (bs.map Builder.bits) := by
  induction bs generalizing p with
  | nil => exact BitVec.or_zero.symm
  | cons b bs ih =>
    rw [List.map_cons, Flags.union_cons, ← BitVec.or_assoc, ← apply_descriptor]
    exact ih (b.apply p)

theorem chain_name_kind (p : PortDescriptor α) (bs : List (Builder α)) :
    (chain p bs).name = p.name ∧ (chain p bs).kind = p.kind := by
  induction bs generalizing p with
  | nil => exact ⟨rfl, rfl⟩
  | cons b bs ih =>
    obtain ⟨hname, hkind⟩ := ih (b.apply p)
    cases b <;> exact ⟨hname, hkind⟩

/-- The bounds of a chain are the last ones it sets. -/
theorem chain_bounds (p : PortDescriptor α) (bs : List (Builder α)) :
    ((chain p bs).hints.lower, (chain p bs).hints.upper) =
      (bounds bs).getLast?.getD (p.hints.lower, p.hints.upper) := by
  induction bs using List.reverseRecOn with
  | nil => rfl
  | append_singleton bs b ih =>
    rw [chain_append, bounds, List.filterMap_append]
    refine (apply_bounds (chain p bs) b).trans ?_
    rw [ih]
    cases b with
    | withBounds lower upper => simp [Builder.bounds?]
    | _ => simp [Builder.bounds?, bounds]

theorem Builder.bits_defaultMask (b : Builder α) :
    b.bits &&& Raw.hintDefaultMask = (b.default?.map PortDefault.bits).getD 0#32 := by
  cases b with
  | withDefault default =>
    simp only [bits, default?, Option.map_some, Option.getD_some]
    cases default <;> decide
  | _ =>
    simp only [bits, default?, Option.map_none, Option.getD_none]
    decide

/-- The default field of a chain is the union of all the codes written into it. -/
theorem bits_defaultMask (bs : List (Builder α)) :
    union (bs.map Builder.bits) &&& Raw.hintDefaultMask =
      union ((defaults bs).map PortDefault.bits) := by
  induction bs with
  | nil => exact BitVec.zero_and
  | cons b bs ih =>
    rw [List.map_cons, Flags.union_cons, BitVec.and_or_distrib_right, ih]
    rw [b.bits_defaultMask]
    cases b with
    | withDefault default => exact (Flags.union_cons _ _).symm
    | _ => exact BitVec.zero_or

/-- A flag is set by a chain exactly when one of its calls sets it. -/
theorem bits_flag_iff (bs : List (Builder α)) {flag : Raw.PortRangeHintDescriptor}
    {sets : Builder α → Prop}
    (hset : ∀ b, sets b → b.bits &&& flag = flag)
    (hunset : ∀ b, ¬ sets b → b.bits &&& flag = 0#32) (hflag : flag ≠ 0#32) :
    union (bs.map Builder.bits) &&& flag ≠ 0#32 ↔ ∃ b ∈ bs, sets b := by
  have hfield : ∀ b : Builder α, b.bits &&& flag = 0#32 ∨ b.bits &&& flag = flag := by
    intro b
    by_cases hb : sets b
    · exact .inr (hset b hb)
    · exact .inl (hunset b hb)
  have hiff : ∀ b : Builder α, b.bits &&& flag ≠ 0#32 ↔ sets b := by
    intro b
    constructor
    · intro hne
      by_contra hb
      exact hne (hunset b hb)
    · intro hb
      rw [hset b hb]
      exact hflag
  rw [Flags.union_and_ne_zero_iff (by simpa using fun b _ => hfield b)]
  simp only [List.mem_map, exists_exists_and_eq_and, hiff]

/-- What a chain of builder calls on a new port should leave. -/
structure Exact [Zero α] (kind : PortKind) (name : String) (bs : List (Builder α))
    (p : PortDescriptor α) : Prop where
  default : p.hints.descriptor &&& Raw.hintDefaultMask =
    ((defaults bs).getLast?.map PortDefault.bits).getD Raw.hintDefaultNone
  integer : p.hints.descriptor &&& Raw.hintInteger ≠ 0#32 ↔ .integer ∈ bs
  toggled : p.hints.descriptor &&& Raw.hintToggled ≠ 0#32 ↔ .toggled ∈ bs
  logarithmic : p.hints.descriptor &&& Raw.hintLogarithmic ≠ 0#32 ↔ .logarithmic ∈ bs
  sampleRate : p.hints.descriptor &&& Raw.hintSampleRate ≠ 0#32 ↔ .sampleRate ∈ bs
  boundedBelow : p.hints.descriptor &&& Raw.hintBoundedBelow ≠ 0#32 ↔ bounds bs ≠ []
  boundedAbove : p.hints.descriptor &&& Raw.hintBoundedAbove ≠ 0#32 ↔ bounds bs ≠ []
  bounds : (p.hints.lower, p.hints.upper) = (bounds bs).getLast?.getD (0, 0)
  noOther : p.hints.descriptor &&& ~~~(Raw.hintDefaultMask ||| Raw.hintInteger |||
    Raw.hintToggled ||| Raw.hintLogarithmic ||| Raw.hintSampleRate |||
    Raw.hintBoundedBelow ||| Raw.hintBoundedAbove) = 0#32
  name : p.name = name
  kind : p.kind = kind

/-- Each of the flags without a value is set exactly by its own method. -/
theorem bits_mem_iff (bs : List (Builder α)) :
    (union (bs.map Builder.bits) &&& Raw.hintInteger ≠ 0#32 ↔ .integer ∈ bs) ∧
      (union (bs.map Builder.bits) &&& Raw.hintToggled ≠ 0#32 ↔ .toggled ∈ bs) ∧
      (union (bs.map Builder.bits) &&& Raw.hintLogarithmic ≠ 0#32 ↔ .logarithmic ∈ bs) ∧
      (union (bs.map Builder.bits) &&& Raw.hintSampleRate ≠ 0#32 ↔ .sampleRate ∈ bs) := by
  have hflag : ∀ (b : Builder α) {flag : Raw.PortRangeHintDescriptor}, b.bits = flag →
      flag ≠ 0#32 → (∀ c, c ≠ b → c.bits &&& flag = 0#32) →
      (union (bs.map Builder.bits) &&& flag ≠ 0#32 ↔ b ∈ bs) := by
    rintro b flag rfl hne hunset
    rw [bits_flag_iff bs (fun c hc => hc ▸ BitVec.and_self) hunset hne]
    exact exists_eq_right
  refine ⟨hflag .integer rfl (by decide) ?_, hflag .toggled rfl (by decide) ?_,
    hflag .logarithmic rfl (by decide) ?_, hflag .sampleRate rfl (by decide) ?_⟩
  all_goals
    rintro (_ | d | _ | _ | _ | _) hne
    all_goals simp only [Builder.bits]
    all_goals first | decide | exact absurd rfl hne | (cases d <;> decide)

/-- Both bounded flags are set exactly by `with_bounds`. -/
theorem bits_bounds_iff (bs : List (Builder α)) :
    (union (bs.map Builder.bits) &&& Raw.hintBoundedBelow ≠ 0#32 ↔ bounds bs ≠ []) ∧
      (union (bs.map Builder.bits) &&& Raw.hintBoundedAbove ≠ 0#32 ↔ bounds bs ≠ []) := by
  have hbounds : bounds bs ≠ [] ↔ ∃ b ∈ bs, b.bounds? ≠ none := by
    rw [bounds, ne_eq, List.filterMap_eq_nil_iff]
    simp
  rw [hbounds]
  constructor
  all_goals
    refine bits_flag_iff bs ?_ ?_ (by decide)
    all_goals
      rintro (_ | d | _ | _ | _ | _) h
      all_goals simp only [Builder.bits]
      all_goals first | decide | (cases d <;> decide) | exact absurd rfl h | exact absurd nofun h

/-- The builders set no bit but the flags and the default. -/
theorem bits_noOther (bs : List (Builder α)) :
    union (bs.map Builder.bits) &&& ~~~(Raw.hintDefaultMask ||| Raw.hintInteger |||
      Raw.hintToggled ||| Raw.hintLogarithmic ||| Raw.hintSampleRate |||
      Raw.hintBoundedBelow ||| Raw.hintBoundedAbove) = 0#32 := by
  rw [Flags.union_and]
  refine Flags.union_eq_zero fun v hv => ?_
  rw [List.map_map] at hv
  obtain ⟨b, -, rfl⟩ := List.mem_map.mp hv
  rw [Function.comp_apply]
  cases b with
  | withDefault d =>
    simp only [Builder.bits]
    cases d <;> decide
  | _ =>
    simp only [Builder.bits]
    decide

/-- **Chains of builder methods, exactly.** For each of the four kinds of port, a chain
leaves what it should if and only if every default code written is contained bit by bit
in the last one. -/
theorem chain_exact_iff [Zero α] (kind : PortKind) (name : String) (bs : List (Builder α)) :
    Exact kind name bs (chain (.declare kind name) bs) ↔
      ∀ last ∈ (defaults bs).getLast?, ∀ d ∈ defaults bs, Within d.bits last.bits := by
  have hword : (chain (PortDescriptor.declare kind name) bs).hints.descriptor =
      union (bs.map Builder.bits) := by
    rw [chain_descriptor]
    exact BitVec.zero_or
  obtain ⟨hname, hkind⟩ := chain_name_kind (PortDescriptor.declare kind name) bs
  have hdefault : union (bs.map Builder.bits) &&& Raw.hintDefaultMask =
        ((defaults bs).getLast?.map PortDefault.bits).getD Raw.hintDefaultNone ↔
      ∀ last ∈ (defaults bs).getLast?, ∀ d ∈ defaults bs, Within d.bits last.bits := by
    rw [bits_defaultMask]
    cases hlast : (defaults bs).getLast? with
    | none =>
      rw [List.getLast?_eq_none_iff.mp hlast]
      simp [Raw.hintDefaultNone]
    | some last =>
      have hmem : last.bits ∈ (defaults bs).map PortDefault.bits :=
        List.mem_map_of_mem (List.mem_of_getLast? hlast)
      rw [Option.map_some, Option.getD_some, Flags.union_eq_iff hmem]
      simp
  constructor
  · intro h
    rw [← hdefault, ← hword]
    exact h.default
  · intro h
    obtain ⟨hinteger, htoggled, hlogarithmic, hsampleRate⟩ := bits_mem_iff bs
    obtain ⟨hbelow, habove⟩ := bits_bounds_iff bs
    rw [← hword] at hdefault hinteger htoggled hlogarithmic hsampleRate hbelow habove
    exact ⟨hdefault.mpr h, hinteger, htoggled, hlogarithmic, hsampleRate, hbelow, habove,
      chain_bounds _ bs, hword ▸ bits_noOther bs, hname, hkind⟩

/-- Two calls of `with_default` publish a third default. -/
theorem minimum_then_low_is_middle :
    let p : PortDescriptor ℕ :=
      chain (.controlInput "Gain") [.withDefault .minimum, .withDefault .low]
    p.hints.descriptor &&& Raw.hintDefaultMask = PortDefault.middle.bits ∧
      ¬ Exact .controlInput "Gain" [.withDefault .minimum, .withDefault .low] p := by
  refine ⟨rfl, fun h => ?_⟩
  exact absurd h.default (by decide)

end Port
