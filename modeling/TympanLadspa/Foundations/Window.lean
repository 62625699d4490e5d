import Mathlib.Data.BitVec
import Mathlib.Data.Nat.ModEq
import Mathlib.Tactic.Common

/-!
# Wrapping counters and windows of a cyclic buffer

An unbounded position `p` is kept as a counter modulo `M` and stored at the cell
`p % M % c` of a buffer of `c` cells. The two moduli agree exactly when no two
positions of one window collide; `slot_eq_iff` says when they do.

`Holds` relates a buffer of optional cells to the window of a sequence it holds.
-/

namespace Window

variable {α : Type*}

/-- Wrapping subtraction is the true distance of two positions less than a full
turn apart. -/
theorem toNat_ofNat_sub {w lo hi : ℕ} (hle : lo ≤ hi) (hlt : hi - lo < 2 ^ w) :
    (BitVec.ofNat w hi - BitVec.ofNat w lo).toNat = hi - lo := by
  have hhi : hi = lo + (hi - lo) := by omega
  have hsplit : BitVec.ofNat w hi = BitVec.ofNat w (hi - lo) + BitVec.ofNat w lo := by
    rw [← BitVec.ofNat_add]
    congr 1
    omega
  rw [hsplit, BitVec.add_sub_cancel, BitVec.toNat_ofNat, Nat.mod_eq_of_lt hlt]

/-- Counters less than a full turn apart are equal only at the same position. -/
theorem ofNat_eq_iff {w lo hi : ℕ} (hle : lo ≤ hi) (hlt : hi - lo < 2 ^ w) :
    BitVec.ofNat w lo = BitVec.ofNat w hi ↔ lo = hi := by
  constructor
  · intro h
    have hd := toNat_ofNat_sub hle hlt
    rw [h, BitVec.sub_self, BitVec.toNat_zero] at hd
    omega
  · rintro rfl
    rfl

/-- Stepping a counter towards another one shortens the way. -/
theorem toNat_sub_add_one_lt {w : ℕ} {lo hi : BitVec w} (h : lo ≠ hi) :
    (hi - (lo + 1)).toNat < (hi - lo).toNat := by
  have hne : (hi - lo).toNat ≠ 0 := by
    intro h0
    exact h (sub_eq_zero.mp (BitVec.eq_of_toNat_eq h0)).symm
  have hlt := (hi - lo).isLt
  have hone : (1#w).toNat = 1 := by
    rw [BitVec.toNat_ofNat]
    exact Nat.mod_eq_of_lt (by omega)
  have hsub : hi - (lo + 1) = hi - lo - 1#w := sub_add_eq_sub_sub hi lo 1
  rw [hsub, BitVec.toNat_sub_of_le (by rw [BitVec.le_def, hone]; omega), hone]
  omega

/-- The cell of position `p`: the counter `p % M`, then the index modulo `c`. -/
def slot (M c p : ℕ) : ℕ := p % M % c

/-- Positions `lo, …, lo + n - 1` have pairwise different slots. -/
def Distinct (slot : ℕ → ℕ) (lo n : ℕ) : Prop :=
  ∀ i j, i < j → j < n → slot (lo + i) ≠ slot (lo + j)

private theorem mod_sub_ne {c d m : ℕ} (hd : 0 < d) (hdc : d < c) (hdm : d ≤ m) :
    (m - d) % c ≠ m % c := by
  intro h
  have hdvd : c ∣ m - (m - d) := (Nat.modEq_iff_dvd' (Nat.sub_le m d)).mp h
  rw [Nat.sub_sub_self hdm] at hdvd
  exact absurd (Nat.le_of_dvd hd hdvd) (by omega)

private theorem add_sub_mod_eq_iff {M c d m : ℕ} (hdc : d < c) (hcM : c ≤ M) :
    (M + m - d) % c = m % c ↔ d = M % c := by
  have hsplit : M + m - d = m + (M - d) := by omega
  rw [hsplit]
  constructor
  · intro h
    have hdvd : c ∣ (m + (M - d)) - m := (Nat.modEq_iff_dvd' (Nat.le_add_right _ _)).mp h.symm
    rw [Nat.add_sub_cancel_left] at hdvd
    have hmod : d % c = M % c := (Nat.modEq_iff_dvd' (by omega)).mpr hdvd
    rwa [Nat.mod_eq_of_lt hdc] at hmod
  · rintro rfl
    have hdvd : c ∣ M - M % c := Nat.dvd_sub_mod M
    obtain ⟨k, hk⟩ := hdvd
    rw [hk, Nat.add_mul_mod_self_left]

/-- **Collisions.** Two positions of one window share a slot exactly when they lie
on two sides of the wrap of the counter, `M % c` apart. -/
theorem slot_eq_iff {M c p q : ℕ} (hcM : c ≤ M) (hpq : p < q) (hd : q - p < c) :
    slot M c p = slot M c q ↔ q - p = M % c ∧ q % M < M % c := by
  obtain ⟨d, hdpos, hdq, rfl⟩ : ∃ d, 0 < d ∧ d ≤ q ∧ p = q - d :=
    ⟨q - p, by omega, by omega, by omega⟩
  have hdc : d < c := by omega
  have hqd : q - (q - d) = d := by omega
  have hM : 0 < M := by omega
  have hq := Nat.div_add_mod q M
  have hm := Nat.mod_lt q hM
  rw [hqd]
  unfold slot
  rcases Nat.lt_or_ge (q % M) d with hlt | hge
  · -- the wrap lies between the two positions
    have hpos : 0 < q / M := by
      by_contra h0
      have hz : q / M = 0 := Nat.eq_zero_of_not_pos h0
      rw [hz, Nat.mul_zero, Nat.zero_add] at hq
      omega
    have hp : q - d = (M + q % M - d) + M * (q / M - 1) := by
      have hexp : M * (q / M) = M + M * (q / M - 1) := by
        rw [Nat.mul_sub, Nat.mul_one]
        have := Nat.le_mul_of_pos_right M hpos
        omega
      omega
    have hmod : (q - d) % M = M + q % M - d := by
      rw [hp, Nat.add_mul_mod_self_left, Nat.mod_eq_of_lt (by omega)]
    rw [hmod, add_sub_mod_eq_iff hdc hcM]
    omega
  · -- both positions lie in the same turn of the counter
    have hmod : (q - d) % M = q % M - d := by
      have hp : q - d = (q % M - d) + M * (q / M) := by omega
      rw [hp, Nat.add_mul_mod_self_left, Nat.mod_eq_of_lt (by omega)]
    rw [hmod]
    constructor
    · intro h
      exact absurd h (mod_sub_ne hdpos hdc hge)
    · rintro ⟨rfl, hlt⟩
      omega

/-- A window of at most `c` positions has distinct slots when `c` divides `M`. -/
theorem distinct_of_dvd {M c lo n : ℕ} (hcM : c ≤ M) (hdvd : c ∣ M) (hn : n ≤ c) :
    Distinct (slot M c) lo n := by
  intro i j hij hj h
  have := ((slot_eq_iff hcM (by omega) (by omega)).mp h).2
  rw [Nat.mod_eq_zero_of_dvd hdvd] at this
  omega

/-- A window of at most `c` positions has distinct slots as long as the counter
has not wrapped. -/
theorem distinct_of_le {M c lo n : ℕ} (hcM : c ≤ M) (hn : n ≤ c) (hhi : lo + n ≤ M) :
    Distinct (slot M c) lo n := by
  intro i j hij hj h
  obtain ⟨hd, hlt⟩ := (slot_eq_iff hcM (by omega) (by omega)).mp h
  rw [Nat.mod_eq_of_lt (by omega : lo + j < M)] at hlt
  omega

theorem Distinct.tail {slot : ℕ → ℕ} {lo n : ℕ} (h : Distinct slot lo (n + 1)) :
    Distinct slot (lo + 1) n := by
  intro i j hij hj
  have := h (i + 1) (j + 1) (by omega) (by omega)
  rwa [← Nat.add_assoc, ← Nat.add_assoc, Nat.add_right_comm lo i 1,
    Nat.add_right_comm lo j 1] at this

-- ════════════════════════════════════════════════════════════════════════
-- Buffers that hold a window
-- ════════════════════════════════════════════════════════════════════════

/-- The buffer holds `xs` at the slots of positions `lo, lo + 1, …`, and every
other cell is empty. -/
structure Holds (slot : ℕ → ℕ) (buffer : List (Option α)) (lo : ℕ) (xs : List α) : Prop where
  filled : ∀ k (hk : k < xs.length), buffer[slot (lo + k)]? = some (some xs[k])
  empty : ∀ i, i < buffer.length → (∀ k, k < xs.length → slot (lo + k) ≠ i) →
    buffer[i]? = some none

variable {slot : ℕ → ℕ} {buffer : List (Option α)} {lo : ℕ} {x : α} {xs : List α}

/-- A buffer of empty cells holds the empty window, wherever it starts. -/
theorem holds_replicate (n : ℕ) : Holds slot (List.replicate n (none : Option α)) lo [] where
  filled := by intro k hk; cases hk
  empty := by
    intro i hi _
    rw [List.length_replicate] at hi
    rw [List.getElem?_replicate, if_pos hi]

theorem Holds.head (h : Holds slot buffer lo (x :: xs)) :
    buffer[slot lo]? = some (some x) := h.filled 0 (Nat.zero_lt_succ _)

/-- The cell of the first position behind the window is free, as long as its slot
is not one of the window. -/
theorem Holds.free (h : Holds slot buffer lo xs) (hd : Distinct slot lo (xs.length + 1))
    (hlt : slot (lo + xs.length) < buffer.length) :
    buffer[slot (lo + xs.length)]? = some none :=
  h.empty _ hlt fun k hk => hd k xs.length hk (by omega)

/-- Writing the cell behind the window extends the window. -/
theorem Holds.push (h : Holds slot buffer lo xs) (hd : Distinct slot lo (xs.length + 1))
    (hlt : slot (lo + xs.length) < buffer.length) :
    Holds slot (buffer.set (slot (lo + xs.length)) (some x)) lo (xs ++ [x]) where
  filled := by
    intro k hk
    rw [List.length_append, List.length_singleton] at hk
    rcases Nat.lt_or_ge k xs.length with hlt' | hge
    · have hne := hd k xs.length hlt' (by omega)
      rw [List.getElem?_set_ne hne.symm, List.getElem_append_left hlt']
      exact h.filled k hlt'
    · obtain rfl : k = xs.length := by omega
      rw [List.getElem?_set_self hlt]
      simp
  empty := by
    intro i hi hfree
    rw [List.length_set] at hi
    have hne := hfree xs.length (by simp)
    rw [List.getElem?_set_ne hne]
    exact h.empty i hi fun k hk => hfree k (by simp; omega)

/-- Emptying the first cell of the window drops its first value. -/
theorem Holds.pop (h : Holds slot buffer lo (x :: xs)) (hd : Distinct slot lo (xs.length + 1)) :
    Holds slot (buffer.set (slot lo) none) (lo + 1) xs where
  filled := by
    intro k hk
    have hne := hd 0 (k + 1) (by omega) (by omega)
    have hk' := h.filled (k + 1) (by simpa using hk)
    rw [Nat.add_zero] at hne
    rw [Nat.add_right_comm lo 1 k, Nat.add_assoc, List.getElem?_set_ne hne, hk']
    rfl
  empty := by
    intro i hi hfree
    rw [List.length_set] at hi
    rcases eq_or_ne (slot lo) i with heq | hne
    · rw [heq, List.getElem?_set_self hi]
    · rw [List.getElem?_set_ne hne]
      refine h.empty i hi fun k hk => ?_
      cases k with
      | zero => exact hne
      | succ k =>
        have := hfree k (by simpa using hk)
        rwa [Nat.add_right_comm lo 1 k] at this

/-- The values of a window, each with its slot. -/
def placed (slot : ℕ → ℕ) : ℕ → List α → List (ℕ × α)
  | _, [] => []
  | lo, x :: xs => (slot lo, x) :: placed slot (lo + 1) xs

@[simp] theorem placed_snd (lo : ℕ) (xs : List α) : (placed slot lo xs).map Prod.snd = xs := by
  induction xs generalizing lo with
  | nil => rfl
  | cons x xs ih => rw [placed, List.map_cons, ih]

theorem placed_getElem? (lo k : ℕ) (xs : List α) :
    (placed slot lo xs)[k]? = xs[k]?.map fun x => (slot (lo + k), x) := by
  induction xs generalizing lo k with
  | nil => rfl
  | cons x xs ih =>
    cases k with
    | zero => rfl
    | succ k =>
      rw [placed, List.getElem?_cons_succ, ih, List.getElem?_cons_succ, Nat.add_right_comm,
        Nat.add_assoc]

@[simp] theorem placed_length (lo : ℕ) (xs : List α) : (placed slot lo xs).length = xs.length := by
  rw [← List.length_map Prod.snd, placed_snd]

theorem placed_fst (lo : ℕ) (xs : List α) :
    (placed slot lo xs).map Prod.fst = (List.range xs.length).map fun k => slot (lo + k) := by
  induction xs generalizing lo with
  | nil => rfl
  | cons x xs ih =>
    rw [placed, List.map_cons, ih, List.length_cons, List.range_succ_eq_map, List.map_cons,
      List.map_map]
    refine congrArg _ (List.map_congr_left fun k _ => ?_)
    rw [Function.comp_apply, Nat.succ_eq_add_one, Nat.add_right_comm, Nat.add_assoc]

/-- No slot of a window without collisions occurs twice. -/
theorem Distinct.placed_nodup (hd : Distinct slot lo xs.length) :
    ((placed slot lo xs).map Prod.fst).Nodup := by
  rw [placed_fst, List.Nodup, List.pairwise_map]
  refine List.pairwise_lt_range.imp_of_mem ?_
  intro i j _ hj hij
  exact hd i j hij (List.mem_range.mp hj)

/-- The cells that hold a value are the slots of the window. -/
theorem Holds.mem_placed_iff (h : Holds slot buffer lo xs) (i : ℕ) (y : α) :
    (i, y) ∈ placed slot lo xs ↔ buffer[i]? = some (some y) := by
  constructor
  · intro hmem
    obtain ⟨k, hk⟩ := List.getElem?_of_mem hmem
    rw [placed_getElem?] at hk
    obtain ⟨x, hx, heq⟩ := Option.map_eq_some_iff.mp hk
    obtain ⟨hlt, rfl⟩ := List.getElem?_eq_some_iff.mp hx
    cases heq
    exact h.filled k hlt
  · intro hcell
    obtain ⟨hi, -⟩ := List.getElem?_eq_some_iff.mp hcell
    by_contra hmem
    rw [h.empty i hi ?_] at hcell
    · cases hcell
    · rintro k hk rfl
      have hx := (h.filled k hk).symm.trans hcell
      simp only [Option.some.injEq] at hx
      refine hmem (List.mem_of_getElem? (i := k) ?_)
      rw [placed_getElem?, List.getElem?_eq_getElem hk, hx]
      rfl

end Window
