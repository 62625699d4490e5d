import Mathlib.Data.List.Basic
import Mathlib.Data.Nat.Basic

/-!
# Delay lines

A circular buffer that always accepts the next value, over the oldest one. Read `d` steps
back, for `d` from one to the length, it gives the value written `d` steps ago.
-/

/-- A circular buffer and the index that is written next. -/
structure DelayLine (α : Type*) where
  buffer : List α
  writeIndex : ℕ
  writeIndex_lt : writeIndex < buffer.length

namespace DelayLine

variable {α : Type*}

def len (l : DelayLine α) : ℕ := l.buffer.length

theorem len_pos (l : DelayLine α) : 0 < l.len := Nat.zero_lt_of_lt l.writeIndex_lt

/-- The index `d` steps behind the write index. -/
def back (l : DelayLine α) (d : ℕ) : ℕ := (l.writeIndex + l.len - d) % l.len

theorem back_lt (l : DelayLine α) (d : ℕ) : l.back d < l.buffer.length :=
  Nat.mod_lt _ l.len_pos

/-- The value written `d` steps ago. -/
def ago (l : DelayLine α) (d : ℕ) : α := l.buffer.get ⟨l.back d, l.back_lt d⟩

theorem getElem?_back (l : DelayLine α) (d : ℕ) : l.buffer[l.back d]? = some (l.ago d) :=
  List.getElem?_eq_getElem (l.back_lt d)

/-- Write a value and advance. -/
def push (l : DelayLine α) (value : α) : DelayLine α where
  buffer := l.buffer.set l.writeIndex value
  writeIndex := (l.writeIndex + 1) % l.len
  writeIndex_lt := by
    rw [List.length_set]
    exact Nat.mod_lt _ l.len_pos

variable {l : DelayLine α} {d : ℕ}

@[simp] theorem len_push (l : DelayLine α) (value : α) : (l.push value).len = l.len :=
  List.length_set

/-- The steps back without the division. -/
theorem back_eq (h : 1 ≤ d) (hd : d ≤ l.len) :
    l.back d = if d ≤ l.writeIndex then l.writeIndex - d else l.writeIndex + l.len - d := by
  have hw : l.writeIndex < l.len := l.writeIndex_lt
  unfold back
  by_cases hle : d ≤ l.writeIndex
  · rw [if_pos hle, show l.writeIndex + l.len - d = l.writeIndex - d + l.len by omega,
      Nat.add_mod_right]
    exact Nat.mod_eq_of_lt (by omega)
  · rw [if_neg hle]
    exact Nat.mod_eq_of_lt (by omega)

/-- No step back and all the steps round come to the same cell. -/
theorem back_zero (l : DelayLine α) : l.back 0 = l.back l.len := by
  unfold back
  rw [Nat.sub_zero, Nat.add_mod_right, Nat.add_sub_cancel]

theorem ago_zero (l : DelayLine α) : l.ago 0 = l.ago l.len := by
  simp only [ago, back_zero]

theorem writeIndex_push (l : DelayLine α) (value : α) :
    (l.push value).writeIndex = if l.writeIndex + 1 = l.len then 0 else l.writeIndex + 1 := by
  have hw : l.writeIndex < l.len := l.writeIndex_lt
  show (l.writeIndex + 1) % l.len = _
  by_cases heq : l.writeIndex + 1 = l.len
  · rw [if_pos heq, heq, Nat.mod_self]
  · rw [if_neg heq]
    exact Nat.mod_eq_of_lt (by omega)

/-- One step back from behind a write is the cell written. -/
theorem back_push_one (l : DelayLine α) (value : α) : (l.push value).back 1 = l.writeIndex := by
  have hw : l.writeIndex < l.len := l.writeIndex_lt
  rw [back_eq le_rfl (by rw [len_push]; exact l.len_pos), writeIndex_push, len_push]
  split <;> split <;> omega

theorem back_push_succ (h : 1 ≤ d) (hd : d < l.len) (value : α) :
    (l.push value).back (d + 1) = l.back d := by
  have hw : l.writeIndex < l.len := l.writeIndex_lt
  rw [back_eq (Nat.le_add_left 1 d) (by rw [len_push]; exact hd), back_eq h (Nat.le_of_lt hd),
    writeIndex_push, len_push]
  split <;> split <;> split <;> omega

theorem back_ne_writeIndex (h : 1 ≤ d) (hd : d < l.len) : l.back d ≠ l.writeIndex := by
  have hw : l.writeIndex < l.len := l.writeIndex_lt
  rw [back_eq h (Nat.le_of_lt hd)]
  split <;> omega

/-- **Newest value**: it is one step back. -/
@[simp] theorem ago_push_one (l : DelayLine α) (value : α) : (l.push value).ago 1 = value := by
  simp only [ago, List.get_eq_getElem, back_push_one]
  exact List.getElem_set_self _

/-- **Older values**: each is one more step back. -/
theorem ago_push_succ (h : 1 ≤ d) (hd : d < l.len) (value : α) :
    (l.push value).ago (d + 1) = l.ago d := by
  simp only [ago, List.get_eq_getElem, back_push_succ h hd]
  exact List.getElem_set_ne (back_ne_writeIndex h hd).symm _

theorem ago_mem (l : DelayLine α) (d : ℕ) : l.ago d ∈ l.buffer := List.get_mem _ _

/-- A cell behind a write holds the value written or an old one. -/
theorem mem_push {value x : α} (h : x ∈ (l.push value).buffer) : x ∈ l.buffer ∨ x = value :=
  List.mem_or_eq_of_mem_set h

theorem self_mem_push (l : DelayLine α) (value : α) : value ∈ (l.push value).buffer :=
  List.mem_set l.writeIndex_lt value

section History

variable [Zero α]

/-- The `j`-th last of `n` values of a history, which nothing comes before. -/
def past (w : ℕ → α) (n j : ℕ) : α := if j ≤ n then w (n - j) else 0

theorem past_succ (w : ℕ → α) (n j : ℕ) : past w (n + 1) (j + 1) = past w n j := by
  unfold past
  simp only [Nat.add_le_add_iff_right, Nat.add_sub_add_right]

/-- The line holds the last values of a history of `n`. -/
def Holds (l : DelayLine α) (w : ℕ → α) (n : ℕ) : Prop :=
  ∀ j, 1 ≤ j → j ≤ l.len → l.ago j = past w n j

/-- A line of `len` zeros that is written at `start` next. -/
def zeros (α : Type*) [Zero α] {len start : ℕ} (h : start < len) : DelayLine α where
  buffer := List.replicate len 0
  writeIndex := start
  writeIndex_lt := by rwa [List.length_replicate]

@[simp] theorem len_zeros {len start : ℕ} (h : start < len) : (zeros α h).len = len :=
  List.length_replicate

theorem zeros_holds {len start : ℕ} (h : start < len) (w : ℕ → α) : (zeros α h).Holds w 0 := by
  intro j hj _
  rw [past, if_neg (by omega)]
  exact List.eq_of_mem_replicate (ago_mem _ j)

/-- **A line keeps up with its history.** -/
theorem Holds.push {w : ℕ → α} {n : ℕ} (h : l.Holds w n) : (l.push (w n)).Holds w (n + 1) := by
  intro j hj hle
  rw [len_push] at hle
  obtain ⟨i, rfl⟩ : ∃ i, j = i + 1 := ⟨j - 1, by omega⟩
  rw [past_succ]
  rcases Nat.eq_zero_or_pos i with rfl | hi
  · rw [ago_push_one, past, if_pos (Nat.zero_le n), Nat.sub_zero]
  · rw [ago_push_succ hi hle, h i hi (Nat.le_of_lt hle)]

end History

section Combined

variable {β γ : Type*}

/-- A line whose cells combine those of two others, each as far back. -/
structure Combines (f : α → β → γ) (l : DelayLine α) (l' : DelayLine β) (both : DelayLine γ) :
    Prop where
  len_left : l.len = both.len
  len_right : l'.len = both.len
  ago : ∀ j, 1 ≤ j → j ≤ both.len → both.ago j = f (l.ago j) (l'.ago j)

variable {f : α → β → γ} {l : DelayLine α} {l' : DelayLine β} {both : DelayLine γ}

/-- No step back too, which is all the way round. -/
theorem Combines.ago_of_le (h : Combines f l l' both) {j : ℕ} (hj : j ≤ both.len) :
    both.ago j = f (l.ago j) (l'.ago j) := by
  rcases Nat.eq_zero_or_pos j with rfl | hpos
  · rw [both.ago_zero, l.ago_zero, l'.ago_zero, h.len_left, h.len_right]
    exact h.ago both.len both.len_pos le_rfl
  · exact h.ago j hpos hj

theorem Combines.push (h : Combines f l l' both) (x : α) (y : β) :
    Combines f (l.push x) (l'.push y) (both.push (f x y)) where
  len_left := by rw [len_push, len_push, h.len_left]
  len_right := by rw [len_push, len_push, h.len_right]
  ago := by
    intro j hj hle
    rw [len_push] at hle
    obtain ⟨i, rfl⟩ : ∃ i, j = i + 1 := ⟨j - 1, by omega⟩
    rcases Nat.eq_zero_or_pos i with rfl | hi
    · rw [ago_push_one, ago_push_one, ago_push_one]
    · rw [ago_push_succ hi hle, ago_push_succ hi (h.len_left ▸ hle),
        ago_push_succ hi (h.len_right ▸ hle)]
      exact h.ago i hi (Nat.le_of_lt hle)

theorem ago_zeros [Zero α] {len start : ℕ} (h : start < len) (j : ℕ) : (zeros α h).ago j = 0 :=
  List.eq_of_mem_replicate (ago_mem _ j)

/-- Lines of zeros, where two zeros combine to a zero. -/
theorem Combines.zeros [Zero α] [Zero β] [Zero γ] {len start : ℕ} (h : start < len)
    (hf : f 0 0 = 0) : Combines f (zeros α h) (zeros β h) (zeros γ h) where
  len_left := by rw [len_zeros, len_zeros]
  len_right := by rw [len_zeros, len_zeros]
  ago := by
    intro j _ _
    rw [ago_zeros, ago_zeros, ago_zeros, hf]

end Combined

end DelayLine
