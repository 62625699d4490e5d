import TympanLadspa.Foundations.DelayLine

/-!
# Shift registers

A fixed number of values, the newest first. A new one goes in front and the oldest falls out. A
delay line is such a register, whatever index it is written at next.
-/

namespace ShiftRegister

variable {α : Type*}

/-- A new value in front. -/
def shift (value : α) (values : List α) : List α := value :: values.dropLast

/-- A value that is everywhere already. -/
theorem shift_replicate {len : ℕ} (h : 0 < len) (value : α) :
    shift value (List.replicate len value) = List.replicate len value := by
  obtain ⟨n, rfl⟩ := Nat.exists_eq_succ_of_ne_zero (Nat.ne_of_gt h)
  rw [shift, List.dropLast_replicate, Nat.succ_sub_one, List.replicate_succ]

end ShiftRegister

namespace DelayLine

variable {α : Type*} {l : DelayLine α}

/-- The values of a line, from one step back to all the steps round. -/
def register (l : DelayLine α) : List α := (List.range l.len).map fun j => l.ago (j + 1)

@[simp] theorem register_length (l : DelayLine α) : l.register.length = l.len := by
  rw [register, List.length_map, List.length_range]

theorem getElem?_register {d : ℕ} (h : 1 ≤ d) (hd : d ≤ l.len) :
    l.register[d - 1]? = some (l.ago d) := by
  have hlt : d - 1 < l.len := by omega
  rw [register, List.getElem?_map, List.getElem?_range hlt, Option.map_some, Nat.sub_add_cancel h]

/-- **A write is a shift**, over the one slot that holds the oldest value. -/
theorem register_push (l : DelayLine α) (value : α) :
    (l.push value).register = ShiftRegister.shift value l.register := by
  obtain ⟨n, hn⟩ := Nat.exists_eq_succ_of_ne_zero (Nat.ne_of_gt l.len_pos)
  have hrest : (List.range n).map (fun j => (l.push value).ago (j + 1 + 1)) =
      (List.range n).map fun j => l.ago (j + 1) := by
    refine List.map_congr_left fun j hj => ?_
    have hlt : j + 1 < l.len := by
      rw [hn]
      exact Nat.succ_lt_succ (List.mem_range.mp hj)
    exact ago_push_succ (Nat.le_add_left 1 j) hlt value
  calc (l.push value).register
      = (l.push value).ago 1 :: (List.range n).map fun j => (l.push value).ago (j + 1 + 1) := by
        rw [register, len_push, hn, List.range_succ_eq_map, List.map_cons, List.map_map]
        rfl
    _ = value :: (List.range n).map fun j => l.ago (j + 1) := by rw [ago_push_one, hrest]
    _ = ShiftRegister.shift value l.register := by
        rw [ShiftRegister.shift, register, hn, List.range_succ, List.map_append, List.map_singleton,
          List.dropLast_concat]

theorem register_zeros [Zero α] {len start : ℕ} (h : start < len) :
    (zeros α h).register = List.replicate len 0 := by
  rw [List.eq_replicate_iff]
  refine ⟨by rw [register_length, len_zeros], fun x hx => ?_⟩
  obtain ⟨j, -, rfl⟩ := List.mem_map.mp hx
  exact ago_zeros h (j + 1)

end DelayLine
