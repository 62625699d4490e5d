import Mathlib.Data.BitVec

/-!
# Checked arithmetic on words

The operations on unsigned machine words that fail where the exact result is not a word. Each
gives a word exactly when that is the exact result.
-/

namespace Checked

variable {w : ℕ} {x y z : BitVec w}

/-- A number below the limit is a word. -/
theorem exists_toNat_eq {n : ℕ} (h : n < 2 ^ w) : ∃ z : BitVec w, z.toNat = n :=
  ⟨.ofNatLT n h, BitVec.toNat_ofNatLT n h⟩

def add (x y : BitVec w) : Option (BitVec w) :=
  if x.toNat + y.toNat < 2 ^ w then some (x + y) else none

def sub (x y : BitVec w) : Option (BitVec w) :=
  if y.toNat ≤ x.toNat then some (x - y) else none

/-- The remainder; there is none of a division by zero. -/
def rem (x y : BitVec w) : Option (BitVec w) :=
  if y.toNat = 0 then none else some (x % y)

theorem add_eq_some_iff : add x y = some z ↔ z.toNat = x.toNat + y.toNat := by
  unfold add
  by_cases h : x.toNat + y.toNat < 2 ^ w
  · have hsum : (x + y).toNat = x.toNat + y.toNat := by
      rw [BitVec.toNat_add]
      exact Nat.mod_eq_of_lt h
    rw [if_pos h, Option.some.injEq, ← hsum]
    constructor
    · rintro rfl
      rfl
    · intro heq
      exact (BitVec.eq_of_toNat_eq heq).symm
  · rw [if_neg h]
    refine iff_of_false nofun fun heq => h ?_
    rw [← heq]
    exact z.isLt

theorem sub_eq_some_iff : sub x y = some z ↔ z.toNat + y.toNat = x.toNat := by
  unfold sub
  by_cases h : y.toNat ≤ x.toNat
  · have hdiff : (x - y).toNat = x.toNat - y.toNat := BitVec.toNat_sub_of_le h
    rw [if_pos h, Option.some.injEq]
    constructor
    · rintro rfl
      omega
    · intro heq
      apply BitVec.eq_of_toNat_eq
      omega
  · rw [if_neg h]
    exact iff_of_false nofun fun heq => h (by omega)

theorem rem_eq_some_iff : rem x y = some z ↔ 0 < y.toNat ∧ z.toNat = x.toNat % y.toNat := by
  unfold rem
  by_cases h : y.toNat = 0
  · rw [if_pos h]
    exact iff_of_false nofun fun hpos => by omega
  · rw [if_neg h, Option.some.injEq, ← BitVec.toNat_umod]
    constructor
    · rintro rfl
      exact ⟨Nat.pos_of_ne_zero h, rfl⟩
    · rintro ⟨-, heq⟩
      exact (BitVec.eq_of_toNat_eq heq).symm

end Checked
