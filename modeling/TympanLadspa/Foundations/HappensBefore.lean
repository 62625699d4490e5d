import Mathlib.Data.List.Induction
import Mathlib.Logic.Relation

/-!
# Happens-before

An execution is a list of actions in the order in which they took effect, by threads that
publish to each other through locations: a release store is one more place in the modification
order of its location, and an acquire load names the place it returns. An action happens before
another one when the two are in one thread, when the second loads what the first stored, or
through others. Actions that are not ordered so may race.
-/

/-- The actions of threads `θ` on locations `κ`. -/
structure Execution (ι θ κ : Type*) where
  actions : List ι
  thread : ι → θ
  stores : κ → ι → Bool
  loads : κ → ι → Option ℕ

namespace Execution

variable {ι θ κ : Type*} (e : Execution ι θ κ)

/-- Both actions are of one thread, in this order. -/
def Program (i j : ℕ) : Prop :=
  i < j ∧ ∃ a b, e.actions[i]? = some a ∧ e.actions[j]? = some b ∧ e.thread a = e.thread b

/-- The stores to a location in front of an action. -/
def stored (l : κ) (i : ℕ) : ℕ := (e.actions.take i).countP (e.stores l)

/-- The store that makes a place of a location; the initial value is place zero. -/
def StoreAt (l : κ) (place i : ℕ) : Prop :=
  ∃ a, e.actions[i]? = some a ∧ e.stores l a = true ∧ e.stored l i + 1 = place

/-- A load that returns a place of a location. -/
def LoadAt (l : κ) (place i : ℕ) : Prop :=
  ∃ a, e.actions[i]? = some a ∧ e.loads l a = some place

/-- The second action loads what the first one stored. -/
def ReadsFrom (i j : ℕ) : Prop := ∃ l place, e.StoreAt l place i ∧ e.LoadAt l place j

/-- The first action happens before the second one. -/
def Before : ℕ → ℕ → Prop := Relation.TransGen fun i j => e.Program i j ∨ e.ReadsFrom i j

/-- No load returns a store that is yet to come. -/
def Causal : Prop := ∀ l place i, e.LoadAt l place i → place ≤ e.stored l i

variable {e} {l : κ} {i j k place n : ℕ}

theorem Program.before (h : e.Program i j) : e.Before i j := .single (.inl h)

theorem stored_mono (h : i ≤ j) : e.stored l i ≤ e.stored l j := by
  have hprefix : e.actions.take i <+: e.actions.take j := List.take_prefix_take_left h
  exact hprefix.countP_le

theorem stored_succ {a : ι} (h : e.actions[i]? = some a) :
    e.stored l (i + 1) = e.stored l i + if e.stores l a then 1 else 0 := by
  rw [stored, List.take_add_one, h, List.countP_append, Option.toList_some, List.countP_singleton]
  rfl

/-- Every place up to the newest one has its store. -/
theorem exists_storeAt (hpos : 0 < place) (hplace : place ≤ e.stored l n) :
    ∃ i < n, e.StoreAt l place i := by
  induction n with
  | zero =>
    rw [stored, List.take_zero, List.countP_nil] at hplace
    omega
  | succ n ih =>
    by_cases hn : place ≤ e.stored l n
    · obtain ⟨i, hi, hstore⟩ := ih hn
      exact ⟨i, by omega, hstore⟩
    · cases ha : e.actions[n]? with
      | none =>
        have hlength := List.getElem?_eq_none_iff.mp ha
        rw [stored, List.take_of_length_le (by omega), ← List.take_of_length_le hlength] at hplace
        exact absurd hplace hn
      | some a =>
        rw [stored_succ ha] at hplace
        by_cases hstores : e.stores l a = true
        · rw [if_pos hstores] at hplace
          exact ⟨n, n.lt_succ_self, a, ha, hstores, by omega⟩
        · rw [if_neg hstores] at hplace
          omega

/-- What happens before is earlier. -/
theorem Before.lt (he : e.Causal) (h : e.Before i j) : i < j := by
  have hstep : ∀ i j, e.Program i j ∨ e.ReadsFrom i j → i < j := by
    rintro i j (hprogram | ⟨l, place, ⟨a, -, -, hstored⟩, hload⟩)
    · exact hprogram.1
    · have hplace := he l place j hload
      by_contra hle
      have hmono := stored_mono (e := e) (l := l) (Nat.not_lt.mp hle)
      omega
  induction h with
  | single h => exact hstep _ _ h
  | tail _ h ih => exact Nat.lt_trans ih (hstep _ _ h)

/-- **Publication**: what the thread that stores to a location has done before its store of a
place happens before what another thread does once it has loaded that place or a later one. -/
theorem before_of_load {a b c : ι} (he : e.Causal) (ha : e.actions[i]? = some a)
    (hstores : ∀ s, e.stores l s = true → e.thread s = e.thread a) (hplain : e.stores l a = false)
    (hplace : e.stored l i < place) (hc : e.actions[k]? = some c) (hload : e.loads l c = some place)
    (hkj : k < j) (hb : e.actions[j]? = some b) (hthread : e.thread c = e.thread b) :
    e.Before i j := by
  have hloaded : e.LoadAt l place k := ⟨c, hc, hload⟩
  obtain ⟨m, -, s, hs, hstore, hm⟩ := exists_storeAt (Nat.zero_lt_of_lt hplace) (he _ _ _ hloaded)
  have him : i < m := by
    by_contra hle
    rcases Nat.lt_or_eq_of_le (Nat.not_lt.mp hle) with hlt | rfl
    · have hmono := stored_mono (e := e) (l := l) hlt
      rw [stored_succ hs, if_pos hstore] at hmono
      omega
    · rw [ha] at hs
      cases hs
      rw [hplain] at hstore
      cases hstore
  have hpublish : e.Program i m := ⟨him, a, s, ha, hs, (hstores s hstore).symm⟩
  have hobserve : e.Program k j := ⟨hkj, c, b, hc, hb, hthread⟩
  have hread : e.ReadsFrom m k := ⟨l, place, ⟨s, hs, hstore, hm⟩, hloaded⟩
  exact (hpublish.before.tail (.inr hread)).tail (.inl hobserve)

end Execution
