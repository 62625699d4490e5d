import Mathlib.Data.BitVec
import Mathlib.Tactic.Common

/-!
# Words of flags

Flags gathered with bitwise or. A field of several bits gathered that way holds the last
value put into it exactly when every earlier one is contained in it bit by bit.
-/

namespace Flags

variable {n : ℕ}

/-- The bitwise or of a list of words. -/
def union (ws : List (BitVec n)) : BitVec n := ws.foldl (· ||| ·) 0#n

/-- Every bit of `v` is a bit of `w`. -/
def Within (v w : BitVec n) : Prop := v &&& w = v

instance (v w : BitVec n) : Decidable (Within v w) := inferInstanceAs (Decidable (_ = _))

theorem foldl_or (v : BitVec n) (ws : List (BitVec n)) :
    ws.foldl (· ||| ·) v = v ||| union ws := by
  induction ws generalizing v with
  | nil => exact (BitVec.or_zero).symm
  | cons w ws ih =>
    rw [union, List.foldl_cons, List.foldl_cons, ih, ih (0#n ||| w), BitVec.zero_or,
      BitVec.or_assoc]

@[simp] theorem union_nil : union ([] : List (BitVec n)) = 0#n := rfl

@[simp] theorem union_cons (w : BitVec n) (ws : List (BitVec n)) :
    union (w :: ws) = w ||| union ws := by
  rw [union, List.foldl_cons, foldl_or, BitVec.zero_or]

/-- A field of the union is the union of the fields. -/
theorem union_and (ws : List (BitVec n)) (mask : BitVec n) :
    union ws &&& mask = union (ws.map (· &&& mask)) := by
  induction ws with
  | nil => exact BitVec.zero_and
  | cons w ws ih => rw [union_cons, BitVec.and_or_distrib_right, ih, List.map_cons, union_cons]

/-- Words without a bit add nothing. -/
theorem union_eq_zero {ws : List (BitVec n)} (h : ∀ w ∈ ws, w = 0#n) : union ws = 0#n := by
  induction ws with
  | nil => rfl
  | cons w ws ih =>
    rw [union_cons, h w List.mem_cons_self, BitVec.zero_or]
    exact ih fun v hv => h v (List.mem_cons_of_mem w hv)

/-- A union of words that are empty or all one value is that value if it occurs. -/
theorem union_eq_of_forall {ws : List (BitVec n)} {v : BitVec n} (hmem : v ∈ ws)
    (h : ∀ w ∈ ws, w = 0#n ∨ w = v) : union ws = v := by
  induction ws with
  | nil => cases hmem
  | cons w ws ih =>
    have htail : ∀ u ∈ ws, u = 0#n ∨ u = v := fun u hu => h u (List.mem_cons_of_mem w hu)
    rw [union_cons]
    by_cases hv : v ∈ ws
    · rw [ih hv htail]
      rcases h w List.mem_cons_self with rfl | rfl
      · exact BitVec.zero_or
      · exact BitVec.or_self
    · obtain rfl : v = w := (List.mem_cons.mp hmem).resolve_right hv
      rw [union_eq_zero fun u hu => (htail u hu).resolve_right fun heq => hv (heq ▸ hu)]
      exact BitVec.or_zero

/-- A flag is set in the union exactly when one of the words has it. -/
theorem union_and_ne_zero_iff {ws : List (BitVec n)} {flag : BitVec n}
    (h : ∀ w ∈ ws, w &&& flag = 0#n ∨ w &&& flag = flag) :
    union ws &&& flag ≠ 0#n ↔ ∃ w ∈ ws, w &&& flag ≠ 0#n := by
  rw [union_and]
  constructor
  · intro hne
    by_contra hnone
    refine hne (union_eq_zero fun v hv => ?_)
    obtain ⟨w, hw, rfl⟩ := List.mem_map.mp hv
    by_contra hwne
    exact hnone ⟨w, hw, hwne⟩
  · rintro ⟨w, hw, hne⟩
    have hflag := (h w hw).resolve_left hne
    have hmem : flag ∈ ws.map (· &&& flag) := List.mem_map.mpr ⟨w, hw, hflag⟩
    rw [union_eq_of_forall hmem, ← hflag]
    · rwa [hflag] at hne ⊢
    · intro v hv
      obtain ⟨u, hu, rfl⟩ := List.mem_map.mp hv
      exact h u hu

theorem within_iff {v w : BitVec n} :
    Within v w ↔ ∀ i, i < n → v.getLsbD i = true → w.getLsbD i = true := by
  constructor
  · intro h i _ hv
    have hand : (v &&& w).getLsbD i = true := by rw [h, hv]
    rw [BitVec.getLsbD_and, Bool.and_eq_true] at hand
    exact hand.2
  · intro h
    refine BitVec.eq_of_getLsbD_eq fun i hi => ?_
    rw [BitVec.getLsbD_and]
    cases hv : v.getLsbD i with
    | false => rfl
    | true => rw [h i hi hv, Bool.and_self]

/-- The union lies within a word exactly when each of its members does. -/
theorem union_within_iff {ws : List (BitVec n)} {w : BitVec n} :
    Within (union ws) w ↔ ∀ v ∈ ws, Within v w := by
  induction ws with
  | nil => simp [Within]
  | cons v ws ih =>
    rw [List.forall_mem_cons, ← ih, union_cons]
    simp only [within_iff, BitVec.getLsbD_or, Bool.or_eq_true]
    constructor
    · exact fun h => ⟨fun i hi hv => h i hi (.inl hv), fun i hi hv => h i hi (.inr hv)⟩
    · rintro ⟨hv, hws⟩ i hi (h | h)
      · exact hv i hi h
      · exact hws i hi h

theorem Within.antisymm {v w : BitVec n} (h : Within v w) (h' : Within w v) : v = w := by
  rw [← h, BitVec.and_comm]
  exact h'

/-- **The last one wins** in a union only if it contains all the others. -/
theorem union_eq_iff {ws : List (BitVec n)} {w : BitVec n} (hmem : w ∈ ws) :
    union ws = w ↔ ∀ v ∈ ws, Within v w := by
  rw [← union_within_iff]
  constructor
  · intro h
    rw [h]
    exact BitVec.and_self
  · intro h
    exact h.antisymm (union_within_iff.mp BitVec.and_self w hmem)

end Flags
