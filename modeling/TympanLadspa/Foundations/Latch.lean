import Mathlib.Data.List.Induction

/-!
# Latches

One bit that some events set and others reset; an event that would do both sets it. What the
bit is behind a history is up to the last event that set or reset it.
-/

/-- The events that set and reset a bit. -/
structure Latch (β : Type*) where
  sets : β → Bool
  resets : β → Bool

namespace Latch

variable {β : Type*}

/-- The bit behind an event. -/
def next (l : Latch β) (state : Bool) (x : β) : Bool :=
  if l.sets x then true else if l.resets x then false else state

/-- The bit behind a history. -/
def after (l : Latch β) (state : Bool) (xs : List β) : Bool := xs.foldl l.next state

def Decisive (l : Latch β) (x : β) : Prop := l.sets x = true ∨ l.resets x = true

/-- The last decisive event of a history sets the bit; without one, it was set before. -/
def SetLast (l : Latch β) (state : Bool) (xs : List β) : Prop :=
  (∃ before x later, xs = before ++ x :: later ∧ l.sets x = true ∧
    ∀ y ∈ later, ¬ l.Decisive y) ∨
    state = true ∧ ∀ x ∈ xs, ¬ l.Decisive x

/-- `l` sets at least where `l'` does, and resets at most there. -/
structure Above (l l' : Latch β) : Prop where
  sets : ∀ x, l'.sets x = true → l.sets x = true
  resets : ∀ x, l.resets x = true → l'.resets x = true

variable {l l' : Latch β} {state state' : Bool} {x : β} {xs : List β}

theorem next_of_sets (h : l.sets x = true) : l.next state x = true := if_pos h

theorem next_of_resets (hsets : l.sets x ≠ true) (h : l.resets x = true) :
    l.next state x = false := by
  rw [next, if_neg hsets, if_pos h]

theorem next_of_idle (h : ¬ l.Decisive x) : l.next state x = state := by
  obtain ⟨hsets, hresets⟩ := not_or.mp h
  rw [next, if_neg hsets, if_neg hresets]

theorem after_cons : l.after state (x :: xs) = l.after (l.next state x) xs := rfl

theorem after_append (xs ys : List β) :
    l.after state (xs ++ ys) = l.after (l.after state xs) ys := List.foldl_append

theorem after_concat : l.after state (xs ++ [x]) = l.next (l.after state xs) x :=
  after_append xs [x]

/-- **Holding**: events that are not decisive leave the bit as it is. -/
theorem after_of_idle (h : ∀ x ∈ xs, ¬ l.Decisive x) : l.after state xs = state := by
  induction xs with
  | nil => rfl
  | cons x xs ih =>
    rw [after_cons, next_of_idle (h x List.mem_cons_self)]
    apply ih
    intro y hy
    exact h y (List.mem_cons_of_mem x hy)

theorem setLast_nil : l.SetLast state [] ↔ state = true := by
  constructor
  · rintro (⟨before, x, later, hxs, -⟩ | ⟨hstate, -⟩)
    · simp at hxs
    · exact hstate
  · intro hstate
    exact .inr ⟨hstate, nofun⟩

theorem setLast_of_sets (h : l.sets x = true) : l.SetLast state (xs ++ [x]) :=
  .inl ⟨xs, x, [], rfl, h, nofun⟩

theorem not_setLast_of_resets (hsets : l.sets x ≠ true) (h : l.resets x = true) :
    ¬ l.SetLast state (xs ++ [x]) := by
  rintro (⟨before, y, later, hxs, hy, hlater⟩ | ⟨-, hidle⟩)
  · rcases List.eq_nil_or_concat later with rfl | ⟨later, z, rfl⟩
    · obtain ⟨-, hxy⟩ := List.append_inj' hxs rfl
      cases hxy
      exact hsets hy
    · rw [List.concat_eq_append, ← List.cons_append, ← List.append_assoc] at hxs
      obtain ⟨-, hxz⟩ := List.append_inj' hxs rfl
      cases hxz
      exact hlater x (by simp) (.inr h)
  · exact hidle x (by simp) (.inr h)

theorem setLast_of_idle (h : ¬ l.Decisive x) :
    l.SetLast state (xs ++ [x]) ↔ l.SetLast state xs := by
  constructor
  · rintro (⟨before, y, later, hxs, hy, hlater⟩ | ⟨hstate, hidle⟩)
    · rcases List.eq_nil_or_concat later with rfl | ⟨later, z, rfl⟩
      · obtain ⟨-, hxy⟩ := List.append_inj' hxs rfl
        cases hxy
        exact absurd (.inl hy) h
      · rw [List.concat_eq_append, ← List.cons_append, ← List.append_assoc] at hxs
        obtain ⟨hxs, -⟩ := List.append_inj' hxs rfl
        exact .inl ⟨before, y, later, hxs, hy, fun u hu => hlater u (by simp [hu])⟩
    · exact .inr ⟨hstate, fun y hy => hidle y (by simp [hy])⟩
  · rintro (⟨before, y, later, rfl, hy, hlater⟩ | ⟨hstate, hidle⟩)
    · refine .inl ⟨before, y, later ++ [x], by simp, hy, ?_⟩
      exact List.forall_mem_append.mpr ⟨hlater, List.forall_mem_singleton.mpr h⟩
    · exact .inr ⟨hstate, List.forall_mem_append.mpr ⟨hidle, List.forall_mem_singleton.mpr h⟩⟩

/-- **The bit is its history.** -/
theorem after_eq_true_iff : l.after state xs = true ↔ l.SetLast state xs := by
  induction xs using List.reverseRecOn with
  | nil => exact setLast_nil.symm
  | append_singleton xs x ih =>
    rw [after_concat]
    by_cases hsets : l.sets x = true
    · exact iff_of_true (next_of_sets hsets) (setLast_of_sets hsets)
    by_cases hresets : l.resets x = true
    · rw [next_of_resets hsets hresets]
      exact iff_of_false Bool.false_ne_true (not_setLast_of_resets hsets hresets)
    · have hidle : ¬ l.Decisive x := not_or.mpr ⟨hsets, hresets⟩
      rw [next_of_idle hidle, setLast_of_idle hidle, ih]

/-- **Step.** A latch above another one stays set as long as that does. -/
theorem Above.next (h : l.Above l') (hstate : state' = true → state = true)
    (hnext : l'.next state' x = true) : l.next state x = true := by
  by_cases hsets : l.sets x = true
  · exact next_of_sets hsets
  have hsets' : l'.sets x ≠ true := fun h' => hsets (h.sets x h')
  by_cases hresets : l.resets x = true
  · rw [next_of_resets hsets' (h.resets x hresets)] at hnext
    cases hnext
  · rw [next_of_idle (not_or.mpr ⟨hsets, hresets⟩)]
    apply hstate
    -- the other latch holds the bit too, for it has not been reset
    rw [Latch.next, if_neg hsets'] at hnext
    by_cases hresets' : l'.resets x = true
    · rw [if_pos hresets'] at hnext
      cases hnext
    · rwa [if_neg hresets'] at hnext

/-- **Run.** -/
theorem Above.after (h : l.Above l') (hstate : state' = true → state = true)
    (hafter : l'.after state' xs = true) : l.after state xs = true := by
  induction xs generalizing state state' with
  | nil => exact hstate hafter
  | cons x xs ih => exact ih (fun hnext => h.next hstate hnext) hafter

end Latch
