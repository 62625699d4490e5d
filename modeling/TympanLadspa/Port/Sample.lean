import Mathlib.Data.Rat.Floor

/-!
# The arithmetic of `Data`

The operations on `Data` that the example plugins use, and their exact version on the
rationals.
-/

namespace Port

/-- `Data` with its arithmetic; `ofRat` stands for literals and for casts from integers. -/
class Sample (α : Type) extends Zero α, One α, Add α, Sub α, Mul α, Div α where
  ofRat : ℚ → α
  gt : α → α → Bool
  max : α → α → α
  clamp : α → α → α → α
  ceil : α → α
  asUsize : α → ℕ

/-- Exact arithmetic. `as usize` cuts off the fraction and saturates at both ends. -/
instance : Sample ℚ where
  ofRat q := q
  gt x y := decide (y < x)
  max x y := if x < y then y else x
  clamp x lo hi := if x < lo then lo else if hi < x then hi else x
  ceil x := ⌈x⌉
  asUsize x := Nat.min ⌊x⌋.toNat (2 ^ 64 - 1)

variable {x lo hi : ℚ}

/-- Any value comes out in range. -/
theorem clamp_mem (h : lo ≤ hi) (x : ℚ) :
    lo ≤ Sample.clamp x lo hi ∧ Sample.clamp x lo hi ≤ hi := by
  show lo ≤ (if x < lo then lo else if hi < x then hi else x) ∧
    (if x < lo then lo else if hi < x then hi else x) ≤ hi
  split
  · exact ⟨le_rfl, h⟩
  · next hlo =>
    split
    · exact ⟨h, le_rfl⟩
    · next hhi => exact ⟨not_lt.mp hlo, not_lt.mp hhi⟩

end Port
