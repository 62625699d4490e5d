import Mathlib.Data.List.Induction

/-!
# Atomic locations with a modification order

A shared atomic location is the list of all values ever stored to it, in
modification order. An observer remembers the place in that order it last saw;
a coherent load returns the entry at any later-or-equal place. The place in the
order is an unbounded counter of the stores made so far.
-/

/-- A location: its initial value and the later stores, oldest first. -/
structure Location (β : Type*) where
  initial : β
  stores : List β
deriving Repr, DecidableEq

namespace Location

variable {β : Type*}

/-- A fresh location holding `b`. -/
def new (b : β) : Location β := ⟨b, []⟩

/-- The number of stores made; also the place of the newest entry. -/
def count (l : Location β) : ℕ := l.stores.length

/-- The entry at place `i` of the modification order. -/
def read (l : Location β) (i : ℕ) : Option β := (l.initial :: l.stores)[i]?

/-- The newest entry: what the writer itself reads back. -/
def last (l : Location β) : β := l.stores.getLastD l.initial

/-- Append a store to the modification order. -/
def store (l : Location β) (b : β) : Location β := ⟨l.initial, l.stores ++ [b]⟩

@[simp] theorem count_new (b : β) : (new b).count = 0 := rfl

@[simp] theorem last_new (b : β) : (new b).last = b := rfl

@[simp] theorem count_store (l : Location β) (b : β) : (l.store b).count = l.count + 1 := by
  simp [count, store]

@[simp] theorem last_store (l : Location β) (b : β) : (l.store b).last = b := by
  simp [last, store]

theorem read_eq_none_iff (l : Location β) (i : ℕ) : l.read i = none ↔ l.count < i := by
  rw [read, List.getElem?_eq_none_iff, List.length_cons, count, Nat.succ_le_iff]

/-- A load names a place that is there. -/
theorem le_count_of_read {l : Location β} {i : ℕ} {b : β} (h : l.read i = some b) :
    i ≤ l.count := by
  by_contra hlt
  rw [(read_eq_none_iff l i).mpr (by omega)] at h
  cases h

/-- A store leaves the older entries in place. -/
theorem read_store_of_le (l : Location β) (b : β) {i : ℕ} (hi : i ≤ l.count) :
    (l.store b).read i = l.read i := by
  have hlt : i < (l.initial :: l.stores).length := by simpa [count, Nat.lt_succ_iff] using hi
  simp only [read, store]
  rw [← List.cons_append, List.getElem?_append_left hlt]

theorem read_store_count (l : Location β) (b : β) : (l.store b).read (l.count + 1) = some b := by
  simp [read, store, count]

/-- The newest entry is the last one of the modification order. -/
theorem read_count (l : Location β) : l.read l.count = some l.last := by
  obtain ⟨b, bs⟩ := l
  cases bs using List.reverseRecOn with
  | nil => rfl
  | append_singleton xs x => simp [read, last, count]

/-- `l` is a counter advanced through `f`: its place `i` holds `f i`. -/
def Counts (l : Location β) (f : ℕ → β) : Prop :=
  ∀ i, i ≤ l.count → l.read i = some (f i)

theorem counts_new (f : ℕ → β) : (new (f 0)).Counts f := by
  intro i hi
  obtain rfl : i = 0 := Nat.le_zero.mp hi
  rfl

theorem Counts.store {l : Location β} {f : ℕ → β} (h : l.Counts f) :
    (l.store (f (l.count + 1))).Counts f := by
  intro i hi
  rw [count_store] at hi
  rcases Nat.lt_or_ge l.count i with hlt | hle
  · obtain rfl : i = l.count + 1 := by omega
    exact read_store_count l _
  · rw [read_store_of_le l _ hle]
    exact h i hle

theorem Counts.last_eq {l : Location β} {f : ℕ → β} (h : l.Counts f) : l.last = f l.count :=
  Option.some.inj (l.read_count.symm.trans (h l.count (Nat.le_refl _)))

/-- A load that returned a value read it at one of the places. -/
theorem Counts.read_eq_some {l : Location β} {f : ℕ → β} (h : l.Counts f) {i : ℕ} {b : β}
    (hread : l.read i = some b) : i ≤ l.count ∧ b = f i := by
  have hi := le_count_of_read hread
  exact ⟨hi, Option.some.inj (hread.symm.trans (h i hi))⟩

end Location
