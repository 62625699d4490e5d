import TympanLadspa.Port.Access

/-!
# Blocks of host memory

The values of consecutive cells, and a block written over them.
-/

namespace Port

variable {α : Type}

/-- The values of `n` cells from `p` on. -/
def Memory.cells (m : Memory α) (p : Ptr) : ℕ → List α
  | 0 => []
  | n + 1 => m p :: m.cells (p + 1) n

/-- Write a block from `p` on. -/
def Memory.overwrite (m : Memory α) (p : Ptr) : List α → Memory α
  | [] => m
  | x :: xs => Memory.overwrite (Function.update m p x) (p + 1) xs

namespace Memory

variable {m m' : Memory α} {p q a : Ptr} {n : ℕ} {x : α} {xs : List α}

@[simp] theorem cells_length (m : Memory α) (p : Ptr) (n : ℕ) : (m.cells p n).length = n := by
  induction n generalizing p with
  | zero => rfl
  | succ n ih => rw [cells, List.length_cons, ih]

theorem forall_mem_cells {P : α → Prop} :
    (∀ y ∈ m.cells p n, P y) ↔ ∀ k < n, P (m (p + k)) := by
  induction n generalizing p with
  | zero => exact iff_of_true nofun nofun
  | succ n ih =>
    rw [cells, List.forall_mem_cons, ih, Nat.forall_lt_succ_left]
    simp only [Nat.add_zero, Nat.add_assoc, Nat.add_comm 1]

theorem forall₂_cells {β : Type} {R : α → β → Prop} {m' : Memory β} :
    List.Forall₂ R (m.cells p n) (m'.cells q n) ↔ ∀ k < n, R (m (p + k)) (m' (q + k)) := by
  induction n generalizing p q with
  | zero => exact iff_of_true .nil nofun
  | succ n ih =>
    rw [cells, cells, List.forall₂_cons, ih, Nat.forall_lt_succ_left]
    simp only [Nat.add_zero, Nat.add_assoc, Nat.add_comm 1]

theorem cells_getElem (m : Memory α) (p : Ptr) {n k : ℕ} (hk : k < (m.cells p n).length) :
    (m.cells p n)[k] = m (p + k) := by
  induction n generalizing p k with
  | zero => cases hk
  | succ n ih =>
    cases k with
    | zero => rfl
    | succ k => exact (ih (p + 1) _).trans (congrArg m (Nat.add_right_comm p 1 k))

theorem cells_congr (h : ∀ k < n, m (p + k) = m' (p + k)) : m.cells p n = m'.cells p n := by
  refine List.ext_getElem (by simp) fun k hk hk' => ?_
  rw [cells_getElem, cells_getElem]
  exact h k (by simpa using hk)

/-- Cells outside a block keep their values. -/
theorem overwrite_of_notMem (h : a ∉ (Slice.mk p xs.length).region) :
    m.overwrite p xs a = m a := by
  induction xs generalizing m p with
  | nil => rfl
  | cons x xs ih =>
    have hap : a ≠ p := by
      rintro rfl
      exact h ⟨le_rfl, Nat.lt_add_of_pos_right (Nat.succ_pos _)⟩
    have hrest : a ∉ (Slice.mk (p + 1) xs.length).region := by
      refine fun hmem => h ⟨Nat.le_of_succ_le hmem.1, ?_⟩
      have hlt : a < p + 1 + xs.length := hmem.2
      exact lt_of_lt_of_eq hlt (Nat.add_right_comm p 1 xs.length)
    rw [overwrite, ih hrest, Function.update_of_ne hap]

/-- What is written is what is there. -/
theorem cells_overwrite (m : Memory α) (p : Ptr) (xs : List α) :
    (m.overwrite p xs).cells p xs.length = xs := by
  induction xs generalizing m p with
  | nil => rfl
  | cons x xs ih =>
    have hp : p ∉ (Slice.mk (p + 1) xs.length).region :=
      fun hmem => absurd hmem.1 (Nat.not_succ_le_self p)
    rw [overwrite, List.length_cons, cells, ih, overwrite_of_notMem hp, Function.update_self]

theorem cells_overwrite_of_length {m : Memory α} {p : Ptr} {xs : List α} {n : ℕ}
    (h : xs.length = n) : (m.overwrite p xs).cells p n = xs := by
  rw [← h]
  exact cells_overwrite m p xs

/-- A write into one of two buffers that are the same or apart, read through the other. -/
theorem update_apart {input output : Ptr} {frames i k : ℕ} (hi : i < frames) (hk : k < frames)
    (hapart : input = output ∨
      Disjoint (Slice.mk input frames).region (Slice.mk output frames).region)
    (m : Memory α) (x : α) :
    Function.update m (output + i) x (input + k) =
      if input = output ∧ k = i then x else m (input + k) := by
  by_cases hsame : input = output ∧ k = i
  · rw [if_pos hsame, hsame.1, hsame.2, Function.update_self]
  · rw [if_neg hsame]
    refine Function.update_of_ne (fun heq => ?_) x m
    rcases hapart with rfl | hdisjoint
    · exact hsame ⟨rfl, Nat.add_left_cancel heq⟩
    · have hin : input + k ∈ (Slice.mk input frames).region :=
        ⟨Nat.le_add_right .., Nat.add_lt_add_left hk _⟩
      refine Set.disjoint_left.mp hdisjoint hin ?_
      rw [heq]
      exact ⟨Nat.le_add_right .., Nat.add_lt_add_left hi _⟩

/-- The cells behind the one written. -/
theorem cells_update_apart {input output : Ptr} {frames i : ℕ} (hn : i + (n + 1) = frames)
    (hapart : input = output ∨
      Disjoint (Slice.mk input frames).region (Slice.mk output frames).region)
    (m : Memory α) (x : α) :
    Memory.cells (Function.update m (output + i) x) (input + (i + 1)) n =
      m.cells (input + (i + 1)) n := by
  refine cells_congr fun k hk => ?_
  rw [Nat.add_assoc, update_apart (by omega) (by omega) hapart, if_neg (by omega)]

end Memory

end Port
