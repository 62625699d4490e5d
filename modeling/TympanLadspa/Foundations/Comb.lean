import TympanLadspa.Foundations.DelayLine
import Mathlib.Algebra.BigOperators.Ring.Finset
import Mathlib.Algebra.BigOperators.Intervals
import Mathlib.Algebra.Order.Ring.Abs
import Mathlib.Tactic.Ring

/-!
# Comb filters

The recurrence `w[n] = x[n] + g · w[n - p]` of a delay line with feedback, and what solves it:
the sum of the echoes `g ^ k · x[n - k · p]`. A line that is fed with nothing but its own past,
weaker by a factor each time and from anywhere in the line, fades by that factor each time round.
-/

namespace Comb

open DelayLine (past)
open Finset (range)

variable {R : Type*} [CommRing R]

/-- The first `N` values follow the recurrence. -/
def Follows (p : ℕ) (g : R) (x w : ℕ → R) (N : ℕ) : Prop :=
  ∀ n < N, w n = x n + g * past w n p

/-- The echoes of a signal, the `k`-th one `k` periods late. -/
def echoes (p : ℕ) (g : R) (x : ℕ → R) (n : ℕ) : R :=
  ∑ k ∈ range (n / p + 1), g ^ k * x (n - k * p)

variable {p : ℕ} {g : R} {x w : ℕ → R} {n N : ℕ}

theorem echoes_of_lt (h : n < p) : echoes p g x n = x n := by
  rw [echoes, Nat.div_eq_of_lt h]
  simp

/-- The echoes of a sample are those of the sample a period before, weaker, and itself. -/
theorem echoes_of_le (hp : 1 ≤ p) (h : p ≤ n) :
    echoes p g x n = x n + g * echoes p g x (n - p) := by
  have hdiv : n / p = (n - p) / p + 1 := by
    conv_lhs => rw [← Nat.sub_add_cancel h]
    exact Nat.add_div_right _ hp
  rw [echoes, hdiv, Finset.sum_range_succ', echoes, Finset.mul_sum, add_comm]
  congr 1
  · simp
  · refine Finset.sum_congr rfl fun k _ => ?_
    have hindex : n - (k + 1) * p = n - p - k * p := by
      rw [Nat.add_mul, Nat.one_mul, Nat.add_comm, Nat.sub_add_eq]
    rw [hindex]
    ring

/-- **The echoes solve the recurrence**, and nothing else does. -/
theorem Follows.eq_echoes (hp : 1 ≤ p) (h : Follows p g x w N) (hn : n < N) :
    w n = echoes p g x n := by
  induction n using Nat.strong_induction_on with
  | h n ih =>
    rw [h n hn, past]
    by_cases hle : p ≤ n
    · rw [if_pos hle, ih (n - p) (by omega) (by omega), echoes_of_le hp hle]
    · rw [if_neg hle, mul_zero, add_zero, echoes_of_lt (Nat.lt_of_not_le hle)]

/-- What comes out of the line at a sample: all its echoes but itself. -/
theorem Follows.past_eq (hp : 1 ≤ p) (h : Follows p g x w N) (hn : n < N) :
    past w n p = ∑ k ∈ range (n / p), g ^ k * x (n - (k + 1) * p) := by
  rw [past]
  by_cases hle : p ≤ n
  · have hdiv : n / p = (n - p) / p + 1 := by
      conv_lhs => rw [← Nat.sub_add_cancel hle]
      exact Nat.add_div_right _ hp
    rw [if_pos hle, h.eq_echoes hp (by omega), echoes, hdiv]
    refine Finset.sum_congr rfl fun k _ => ?_
    have hindex : n - (k + 1) * p = n - p - k * p := by
      rw [Nat.add_mul, Nat.one_mul, Nat.add_comm, Nat.sub_add_eq]
    rw [hindex]
  · rw [if_neg hle, Nat.div_eq_of_lt (Nat.lt_of_not_le hle)]
    rfl

end Comb

namespace DelayLine

variable {R : Type*} [CommRing R] [LinearOrder R] [IsStrictOrderedRing R]

/-- The line has faded for `n` writes: each value by the rounds it has been through. -/
def Fading (c bound : R) (l : DelayLine R) (n : ℕ) : Prop :=
  ∀ j, 1 ≤ j → j ≤ l.len → |l.ago j| ≤ c ^ ((n + l.len - j) / l.len) * bound

variable {c bound v : R} {l : DelayLine R} {n d : ℕ}

omit [IsStrictOrderedRing R] in
theorem fading_of_cells (h : ∀ y ∈ l.buffer, |y| ≤ bound) : l.Fading c bound 0 := by
  intro j hj hle
  have hlen := l.len_pos
  rw [Nat.zero_add, Nat.div_eq_of_lt (by omega), pow_zero, one_mul]
  exact h _ (ago_mem l j)

/-- What is read has faded for as many rounds as there are in `n`. -/
theorem Fading.ago_le (h : l.Fading c bound n) (hc : 0 ≤ c) (hone : c ≤ 1) (hbound : 0 ≤ bound)
    (hd : 1 ≤ d) (hle : d ≤ l.len) : |l.ago d| ≤ c ^ (n / l.len) * bound := by
  have hrounds : n / l.len ≤ (n + l.len - d) / l.len := Nat.div_le_div_right (by omega)
  exact (h d hd hle).trans
    (mul_le_mul_of_nonneg_right (pow_le_pow_of_le_one hc hone hrounds) hbound)

/-- **One round weaker**: so is a value that is written from any place in the line. -/
theorem Fading.push (h : l.Fading c bound n) (hc : 0 ≤ c) (hone : c ≤ 1) (hbound : 0 ≤ bound)
    (hd : 1 ≤ d) (hle : d ≤ l.len) (hv : |v| ≤ c * |l.ago d|) :
    (l.push v).Fading c bound (n + 1) := by
  intro j hj hjle
  rw [len_push] at hjle ⊢
  obtain ⟨i, rfl⟩ : ∃ i, j = i + 1 := ⟨j - 1, by omega⟩
  rcases Nat.eq_zero_or_pos i with rfl | hi
  · have hlen := l.len_pos
    have hrounds : (n + 1 + l.len - (0 + 1)) / l.len = n / l.len + 1 := by
      rw [show n + 1 + l.len - (0 + 1) = n + l.len by omega, Nat.add_div_right n hlen]
    rw [ago_push_one, hrounds, pow_succ', mul_assoc]
    exact hv.trans (mul_le_mul_of_nonneg_left (h.ago_le hc hone hbound hd hle) hc)
  · rw [ago_push_succ hi hjle, show n + 1 + l.len - (i + 1) = n + l.len - i by omega]
    exact h i hi (Nat.le_of_lt hjle)

end DelayLine
