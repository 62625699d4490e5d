import TympanLadspa.Foundations.Once
import Mathlib.Data.Set.Finite.Basic
import Mathlib.Data.Set.Finite.Lattice

/-!
# Programs that allocate

A program that asks for one block after the other, and then is done or fails. Which address a
block gets is not its choice. Run under the lock of a cell, over a heap that the rest of the
process goes on using, it owns its blocks until it fails, and they are those of its value then.
-/

/-- What a program does next. -/
inductive AllocProg (β ε ρ : Type*)
  | done (value : ρ)
  | fail (error : ε)
  | alloc (block : β) (next : ℕ → AllocProg β ε ρ)

namespace Alloc

variable {β ε ρ : Type*}

/-- The address of NULL. -/
def null : ℕ := 0

/-- What is at an address: a block of the program, or something else of the process. -/
inductive Content (β : Type*)
  | block (b : β)
  | other

abbrev Heap (β : Type*) := ℕ → Option (Content β)

/-- A program on its way: what it has still to do, and its blocks. -/
structure Job (β ε ρ : Type*) where
  rest : AllocProg β ε ρ
  owned : List (ℕ × β)

/-- What the rest of the process does: it gets a block, or frees one of its own. -/
inductive Beside
  | take (address : ℕ)
  | free (address : ℕ)

/-- The program under the lock of a cell; the allocator answers each request. -/
def initializer (prog : AllocProg β ε ρ) : Initializer (Heap β) (Job β ε ρ) ℕ ρ Beside where
  start := ⟨prog, []⟩
  work heap job address :=
    match job.rest with
    | .alloc block next =>
      if address ≠ null ∧ (heap address).isNone then
        some (Function.update heap address (some (.block block)),
          ⟨next address, (address, block) :: job.owned⟩)
      else none
    | _ => none
  outcome job :=
    match job.rest with
    | .done value => some (some value)
    | .fail _ => some none
    | .alloc _ _ => none
  undo heap job := fun address =>
    if address ∈ job.owned.map Prod.fst then none else heap address
  beside heap what :=
    match what with
    | .take address =>
      if address ≠ null ∧ (heap address).isNone then
        some (Function.update heap address (some .other))
      else none
    | .free address =>
      match heap address with
      | some .other => some (Function.update heap address none)
      | _ => none

-- ════════════════════════════════════════════════════════════════════════
-- What a program comes to
-- ════════════════════════════════════════════════════════════════════════

/-- Whatever addresses it gets, the program comes to a result that is as `post` says, of the
blocks it has then. -/
def Yields (post : List (ℕ × β) → Except ε ρ → Prop) :
    AllocProg β ε ρ → List (ℕ × β) → Prop
  | .done value, owned => post owned (.ok value)
  | .fail error, owned => post owned (.error error)
  | .alloc block next, owned => ∀ address, address ≠ null → address ∉ owned.map Prod.fst →
      Yields post (next address) ((address, block) :: owned)

/-- The program asks for at most so many blocks. -/
def Takes : AllocProg β ε ρ → ℕ → Prop
  | .done _, _ => True
  | .fail _, _ => True
  | .alloc _ _, 0 => False
  | .alloc _ next, n + 1 => ∀ address, Takes (next address) n

/-- The blocks of the program are these and no others, each at an address of its own. -/
structure Owns (heap : Heap β) (owned : List (ℕ × β)) : Prop where
  nodup : (owned.map Prod.fst).Nodup
  block_iff : ∀ address b, heap address = some (.block b) ↔ (address, b) ∈ owned

/-- Only so many addresses are taken. -/
def Limited (heap : Heap β) : Prop := Set.Finite {address | heap address ≠ none}

variable {heap : Heap β} {owned : List (ℕ × β)} {address : ℕ} {b : β}
  {post : List (ℕ × β) → Except ε ρ → Prop} {prog : AllocProg β ε ρ}

theorem Takes.succ {n : ℕ} (h : Takes prog n) : Takes prog (n + 1) := by
  induction prog generalizing n with
  | done value => trivial
  | fail error => trivial
  | alloc block next ih =>
    cases n with
    | zero => exact h.elim
    | succ n => exact fun a => ih a (h a)

theorem Limited.update (h : Limited heap) (content : Option (Content β)) :
    Limited (Function.update heap address content) := by
  refine (h.insert address).subset fun a ha => ?_
  by_cases heq : a = address
  · exact .inl heq
  · refine .inr fun hnone => ha ?_
    rw [Function.update_of_ne heq, hnone]

/-- There is always an address left. -/
theorem Limited.exists_free (h : Limited heap) :
    ∃ address, address ≠ null ∧ (heap address).isNone = true := by
  obtain ⟨a, ha⟩ := (h.insert null).exists_notMem
  refine ⟨a, fun hnull => ha (.inl hnull), ?_⟩
  by_contra hsome
  exact ha (.inr fun hnone => hsome (Option.isNone_iff_eq_none.mpr hnone))

theorem owns_nil_iff : Owns heap [] ↔ ∀ address b, heap address ≠ some (.block b) := by
  constructor
  · intro h address b hblock
    exact absurd ((h.block_iff address b).mp hblock) List.not_mem_nil
  · intro h
    exact ⟨List.nodup_nil, fun address b =>
      iff_of_false (h address b) List.not_mem_nil⟩

theorem Owns.not_mem (h : Owns heap owned) (hfree : heap address = none) :
    address ∉ owned.map Prod.fst := by
  intro hmem
  obtain ⟨⟨a, b⟩, howned, rfl⟩ := List.mem_map.mp hmem
  rw [(h.block_iff a b).mpr howned] at hfree
  cases hfree

/-- A new block at a free address. -/
theorem Owns.alloc (h : Owns heap owned) (hfree : heap address = none) (b : β) :
    Owns (Function.update heap address (some (.block b))) ((address, b) :: owned) where
  nodup := List.nodup_cons.mpr ⟨h.not_mem hfree, h.nodup⟩
  block_iff := by
    intro a c
    rw [List.mem_cons, Prod.mk.injEq]
    by_cases heq : a = address
    · subst heq
      rw [Function.update_self, Option.some.injEq, Content.block.injEq]
      constructor
      · intro hc
        exact .inl ⟨rfl, hc.symm⟩
      · rintro (⟨-, rfl⟩ | hmem)
        · rfl
        · exact absurd (List.mem_map_of_mem hmem) (h.not_mem hfree)
    · rw [Function.update_of_ne heq, h.block_iff]
      constructor
      · exact .inr
      · rintro (⟨rfl, -⟩ | hmem)
        · exact absurd rfl heq
        · exact hmem

/-- Something else at an address that was none of the program's, and is none. -/
theorem Owns.update (h : Owns heap owned) {content : Option (Content β)}
    (hold : ∀ b, heap address ≠ some (.block b)) (hnew : ∀ b, content ≠ some (.block b)) :
    Owns (Function.update heap address content) owned where
  nodup := h.nodup
  block_iff := by
    intro a c
    by_cases heq : a = address
    · subst heq
      rw [Function.update_self]
      refine iff_of_false (hnew c) fun hmem => ?_
      exact hold c ((h.block_iff a c).mpr hmem)
    · rw [Function.update_of_ne heq, h.block_iff]

-- ════════════════════════════════════════════════════════════════════════
-- Under the lock
-- ════════════════════════════════════════════════════════════════════════

/-- The blocks that a program of at most `n` has still to get. -/
def left (n : ℕ) (job : Job β ε ρ) : ℕ := n - job.owned.length

/-- A program on its way to what `post` says, with at most `n` blocks. -/
structure Going (post : List (ℕ × β) → Except ε ρ → Prop) (n : ℕ) (heap : Heap β)
    (job : Job β ε ρ) : Prop where
  limited : Limited heap
  owns : Owns heap job.owned
  yields : Yields post job.rest job.owned
  takes : Takes job.rest (left n job)

/-- What holds of the heap while the program is not run, while it is, and of its value. -/
def rely (post : List (ℕ × β) → Except ε ρ → Prop) (n : ℕ) :
    Once.Rely (Heap β) (Job β ε ρ) ρ where
  vacant heap := Limited heap ∧ Owns heap []
  job := Going post n
  kept heap value := Limited heap ∧ ∃ owned, Owns heap owned ∧ post owned (.ok value)

theorem beside_eq_some {heap' : Heap β} {what : Beside}
    (h : (initializer prog).beside heap what = some heap') :
    ∃ address content, heap' = Function.update heap address content ∧
      (∀ b, heap address ≠ some (.block b)) ∧ ∀ b, content ≠ some (.block b) := by
  cases what with
  | take address =>
    simp only [initializer, Option.ite_none_right_eq_some, Option.some.injEq] at h
    obtain ⟨⟨-, hfree⟩, rfl⟩ := h
    rw [Option.isNone_iff_eq_none] at hfree
    exact ⟨address, some .other, rfl, by simp [hfree], by simp⟩
  | free address =>
    simp only [initializer] at h
    split at h
    · next hother =>
      cases h
      exact ⟨address, none, rfl, by simp [hother], by simp⟩
    · cases h

theorem work_eq_some {job job' : Job β ε ρ} {heap' : Heap β}
    (h : (initializer prog).work heap job address = some (heap', job')) :
    ∃ block next, job.rest = .alloc block next ∧ address ≠ null ∧ heap address = none ∧
      heap' = Function.update heap address (some (.block block)) ∧
      job' = ⟨next address, (address, block) :: job.owned⟩ := by
  simp only [initializer] at h
  split at h
  · next block next hrest =>
    simp only [Option.ite_none_right_eq_some, Option.some.injEq, Prod.mk.injEq] at h
    obtain ⟨⟨hnull, hfree⟩, rfl, rfl⟩ := h
    exact ⟨block, next, hrest, hnull, Option.isNone_iff_eq_none.mp hfree, rfl, rfl⟩
  · cases h

theorem outcome_eq_some {job : Job β ε ρ} {result : Option ρ}
    (h : (initializer prog).outcome job = some result) :
    (∃ value, result = some value ∧ job.rest = .done value) ∨
      result = none ∧ ∃ error, job.rest = .fail error := by
  simp only [initializer] at h
  split at h
  · next value hrest =>
    cases h
    exact .inl ⟨value, rfl, hrest⟩
  · next error hrest =>
    cases h
    exact .inr ⟨rfl, error, hrest⟩
  · cases h

variable {n : ℕ}

/-- One block fewer to get. -/
theorem Going.work {job job' : Job β ε ρ} {heap' : Heap β} (h : Going post n heap job)
    (hwork : (initializer prog).work heap job address = some (heap', job')) :
    Going post n heap' job' ∧ left n job' < left n job := by
  obtain ⟨block, next, hrest, hnull, hfree, rfl, rfl⟩ := work_eq_some hwork
  have hyields := h.yields
  have htakes := h.takes
  rw [hrest] at hyields htakes
  cases hleft : left n job with
  | zero =>
    rw [hleft] at htakes
    exact htakes.elim
  | succ k =>
    rw [hleft] at htakes
    have hk : left n ⟨next address, (address, block) :: job.owned⟩ = k := by
      simp only [left, List.length_cons] at hleft ⊢
      omega
    refine ⟨⟨h.limited.update _, h.owns.alloc hfree block,
      hyields address hnull (h.owns.not_mem hfree), ?_⟩, ?_⟩
    · rw [hk]
      exact htakes address
    · rw [hk]
      exact Nat.lt_succ_self k

theorem rely_falls (prog : AllocProg β ε ρ) : (rely post n).Falls (initializer prog) (left n) :=
  fun _ _ _ _ _ hjob hwork => (hjob.work hwork).2

/-- **A program that allocates** leaves what it should under the lock, and nothing if it fails. -/
theorem rely_keeps (hyields : Yields post prog []) (htakes : Takes prog n) :
    (rely post n).Keeps (initializer prog) where
  start heap h := ⟨h.1, h.2, hyields, htakes⟩
  work heap job address heap' job' h hwork := (h.work hwork).1
  finish := by
    rintro heap job value h houtcome
    rcases outcome_eq_some houtcome with ⟨value', hvalue, hrest⟩ | ⟨hnone, -⟩
    · cases hvalue
      have hpost := h.yields
      rw [hrest] at hpost
      exact ⟨h.limited, job.owned, h.owns, hpost⟩
    · cases hnone
  undo := by
    rintro heap job h -
    refine ⟨h.limited.subset fun a ha hnone => ha ?_, owns_nil_iff.mpr fun a b hblock => ?_⟩
    · show (if a ∈ job.owned.map Prod.fst then none else heap a) = none
      rw [hnone, ite_self]
    · change (if a ∈ job.owned.map Prod.fst then none else heap a) = some (.block b) at hblock
      split at hblock
      · cases hblock
      · next hmem => exact hmem (List.mem_map_of_mem ((h.owns.block_iff a b).mp hblock))
  beside_vacant := by
    rintro heap what heap' ⟨hlimited, howns⟩ hbeside
    obtain ⟨address, content, rfl, hold, hnew⟩ := beside_eq_some hbeside
    exact ⟨hlimited.update _, howns.update hold hnew⟩
  beside_job := by
    rintro heap job what heap' h hbeside
    obtain ⟨address, content, rfl, hold, hnew⟩ := beside_eq_some hbeside
    exact ⟨h.limited.update _, h.owns.update hold hnew, h.yields, h.takes⟩
  beside_kept := by
    rintro heap value what heap' ⟨hlimited, owned, howns, hpost⟩ hbeside
    obtain ⟨address, content, rfl, hold, hnew⟩ := beside_eq_some hbeside
    exact ⟨hlimited.update _, owned, howns.update hold hnew, hpost⟩

/-- While there is memory, a program that wants a block gets one. -/
theorem exists_work {job : Job β ε ρ} (hlimited : Limited heap)
    (houtcome : (initializer prog).outcome job = none) :
    ∃ address, ((initializer prog).work heap job address).isSome := by
  obtain ⟨address, hnull, hfree⟩ := hlimited.exists_free
  refine ⟨address, ?_⟩
  simp only [initializer] at houtcome ⊢
  split at houtcome
  · cases houtcome
  · cases houtcome
  · next block next hrest =>
    rw [hrest]
    simp only [if_pos (And.intro hnull hfree), Option.isSome_some]

end Alloc
