import Mathlib.Data.List.TakeWhile
import Mathlib.Data.Char
import Mathlib.Tactic.Common

/-!
# C strings

Text in UTF-8, up to the first zero byte. Only the character zero has a zero byte, so text
without it is read back as it was, whatever is in memory behind the byte that ends it.
-/

namespace CStr

/-- The UTF-8 bytes of some characters. -/
def encode (cs : List Char) : List UInt8 := cs.flatMap String.utf8EncodeChar

/-- The bytes up to the first zero. -/
def read (memory : List UInt8) : List UInt8 := memory.takeWhile (· ≠ 0)

/-- The text of some bytes, if they are UTF-8. -/
def decode (bytes : List UInt8) : Option String := String.fromUTF8? bytes.toByteArray

/-- A byte of a small number is zero only if the number is. -/
theorem ofNat_eq_zero_iff {n : ℕ} (h : n < 256) : UInt8.ofNat n = 0 ↔ n = 0 := by
  rw [← UInt8.toNat_inj, UInt8.toNat_ofNat_of_lt' h, UInt8.toNat_zero]

/-- Only the character zero has a zero byte. -/
theorem zero_mem_utf8EncodeChar {c : Char} :
    0 ∈ String.utf8EncodeChar c ↔ c = Char.ofNat 0 := by
  have hzero : c = Char.ofNat 0 ↔ c.val.toNat = 0 := by
    constructor
    · rintro rfl
      rfl
    · intro h
      exact Char.ext (UInt32.toNat_inj.mp h)
  rw [hzero]
  unfold String.utf8EncodeChar
  generalize c.val.toNat = v
  dsimp only
  -- each byte but the one of a small character has a high bit
  have hhigh : ∀ n, n < 256 → 0 < n → 0 ≠ UInt8.ofNat n := fun n hn hpos heq =>
    absurd ((ofNat_eq_zero_iff hn).mp heq.symm) (Nat.ne_of_gt hpos)
  split
  · next hsmall =>
    rw [List.mem_singleton, eq_comm, ofNat_eq_zero_iff (by omega)]
  · next hlarge =>
    refine iff_of_false (fun hmem => ?_) (by omega)
    split at hmem
    · simp only [List.mem_cons, List.not_mem_nil, or_false] at hmem
      rcases hmem with h | h
      all_goals exact hhigh _ (by omega) (by omega) h
    · split at hmem
      · simp only [List.mem_cons, List.not_mem_nil, or_false] at hmem
        rcases hmem with h | h | h
        all_goals exact hhigh _ (by omega) (by omega) h
      · simp only [List.mem_cons, List.not_mem_nil, or_false] at hmem
        rcases hmem with h | h | h | h
        all_goals exact hhigh _ (by omega) (by omega) h

theorem zero_mem_encode {cs : List Char} : 0 ∈ encode cs ↔ Char.ofNat 0 ∈ cs := by
  simp only [encode, List.mem_flatMap, zero_mem_utf8EncodeChar, exists_eq_right]

/-- **Up to the first zero**: bytes without one are read back. -/
theorem read_append {bytes : List UInt8} (h : 0 ∉ bytes) (rest : List UInt8) :
    read (bytes ++ 0 :: rest) = bytes := by
  have hbytes : ∀ b ∈ bytes, decide (b ≠ 0) = true := by
    intro b hb
    rw [decide_eq_true_eq]
    rintro rfl
    exact h hb
  rw [read, List.takeWhile_append_of_pos hbytes, List.takeWhile_cons_of_neg (by decide),
    List.append_nil]

/-- **Text and bytes**: what is encoded is decoded. -/
theorem decode_encode (s : String) : decode (encode s.toList) = some s := by
  have hbytes : (encode s.toList).toByteArray = s.toByteArray := String.utf8Encode_toList
  rw [decode, String.fromUTF8?, hbytes, dif_pos s.isValidUTF8]
  rfl

end CStr
