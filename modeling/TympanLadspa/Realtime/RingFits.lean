import TympanLadspa.Realtime.RingInvariant

/-!
# Pushes into empty slots

`Fits` is what the `SAFETY` comment of `try_push` claims of the slot it writes. As long as
every push fits, whatever the capacity, the buffer holds the window: `Kept`. A push that
does not fit loses a value for good: `Lost` counts the slots that are short of the window.
-/

namespace Ring

open Window (slot Distinct Holds)

variable {w : ℕ} {α : Type*}

/-- The slot `try_push` is about to write is empty, as its `SAFETY` comment says. -/
def Fits (s : State w α) : PushAct α → Prop
  | .write => ∀ value tail, s.producer = .vacant value tail →
    s.inner.buffer[s.inner.idx tail]? = some none
  | _ => True

/-- The buffer holds the window, each value in a slot of its own. -/
structure Kept (s : State w α) : Prop extends Slots s where
  spread : s.Spread s.window

namespace Kept

variable {s t : State w α}

/-- A window stays apart when its next slot is empty. -/
theorem spread_succ (h : Kept s) (hc : Counters s) {value : α} {tail : BitVec w}
    (hpc : s.producer = .vacant value tail)
    (hfree : s.inner.buffer[s.inner.idx tail]? = some none) : s.Spread (s.window + 1) := by
  obtain ⟨xs, -, hxs, hlen, hidx⟩ := h.vacant hc hpc
  intro i j hij hj heq
  rcases Nat.lt_or_ge j s.window with hlt | hge
  · exact h.spread i j hij hlt heq
  · obtain rfl : j = s.window := by omega
    have hfilled := hxs.filled i (by omega)
    rw [heq, ← hlen, ← hidx, hfree] at hfilled
    cases hfilled

theorem pushStep {a : PushAct α} (h : Kept s) (hc : Counters s) (hfits : Fits s a)
    (hstep : PushStep s a t) : Kept t := by
  have hd : ∀ value tail, s.producer = .vacant value tail → s.Spread (s.window + 1) := by
    intro value tail hpc
    refine h.spread_succ hc hpc ?_
    cases hstep with
    | write _ => exact hfits value tail hpc
    | _ => simp_all
  refine ⟨h.toSlots.pushStep hc hd hstep, ?_⟩
  have hspread := h.spread
  have htaken := hc.taken_le
  cases hstep with
  | @write value tail hpc =>
    have hwindow : s.window + 1 = s.inner.tail.count + 1 -
        (s.inner.head.count + s.taken.length) := by
      rw [State.window, staged_eq_nil s (by simp [hpc]), List.length_nil]
      omega
    have hnext := hd value tail hpc
    rw [hwindow] at hnext
    exact hnext
  | @storeTail value tail hpc =>
    rw [State.window, staged_eq s hpc] at hspread
    simpa [State.window, State.Spread, State.taken, State.staged] using hspread
  | _ =>
    rw [State.window, staged_eq_nil s (by simp [*])] at hspread
    exact hspread

theorem popStep {a : PopAct} (h : Kept s) (hc : Counters s) (hstep : PopStep s a t) :
    Kept t := by
  refine ⟨h.toSlots.popStep hc h.spread hstep, ?_⟩
  have hspread := h.spread
  cases hstep with
  | @read value head hpc hcell =>
    have hok := hc.consumer_ok
    rw [hpc] at hok
    have hlt := hok.2.trans_le hc.seenTail_le
    have hnil : s.taken = [] := taken_eq_nil s (by simp [hpc])
    have hwindow : s.window = s.inner.tail.count + s.staged.length -
        (s.inner.head.count + 1) + 1 := by
      rw [State.window, hnil, List.length_nil]
      omega
    rw [hwindow, State.Spread, hnil] at hspread
    exact hspread.tail
  | @storeHead value head hpc =>
    rw [State.window, State.Spread, taken_eq s hpc] at hspread
    simpa [State.window, State.Spread, State.taken, State.staged] using hspread
  | _ =>
    rw [State.window, State.Spread, taken_eq_nil s (by simp [*])] at hspread
    exact hspread

theorem start {inner : Inner w α}
    (hbuf : inner.buffer = List.replicate inner.capacity.toNat none) (htail : inner.tail = .new 0) :
    Kept (State.start inner) where
  toSlots := .start hbuf
  spread := by
    intro i j _ hj
    simp [State.window, State.staged, State.start, htail] at hj

theorem of_channel {capacity : BitVec w} {inner : Inner w α} (h : channel capacity = .ok inner) :
    Kept (State.start inner) := by
  obtain ⟨hbuf, hcap, -, htail⟩ := channel_eq_ok h
  exact .start (hcap ▸ hbuf) htail

end Kept

/-- The number of slots that hold a value. -/
def State.filled (s : State w α) : ℕ := s.inner.buffer.countP Option.isSome

/-- Of the values in the window `n` are in no slot, or a slot that holds none was read. -/
def Lost (n : ℕ) (s : State w α) : Prop := s.consumer = .uninit ∨ s.filled + n ≤ s.window

theorem Inner.countP_setSlot (inner : Inner w α) (cell : Option α) {i : ℕ} {old : Option α}
    (h : inner.buffer[i]? = some old) :
    (inner.setSlot i cell).buffer.countP Option.isSome + (if old.isSome then 1 else 0) =
      inner.buffer.countP Option.isSome + if cell.isSome then 1 else 0 := by
  obtain ⟨hi, rfl⟩ := List.getElem?_eq_some_iff.mp h
  rw [Inner.setSlot_buffer, List.countP_set hi]
  have hle : (if inner.buffer[i].isSome then 1 else 0) ≤ inner.buffer.countP Option.isSome := by
    split
    · next hsome => exact List.countP_pos_iff.mpr ⟨_, List.getElem_mem hi, hsome⟩
    · exact Nat.zero_le _
  omega

/-- A push fills at most one slot and makes the window longer by one; into a slot that holds a
value it fills none. -/
theorem PushStep.filled {s t : State w α} {a : PushAct α} (h : PushStep s a t)
    (hc : Counters s) :
    t.filled + s.window ≤ s.filled + t.window ∧
      (¬ Fits s a → t.filled + s.window < s.filled + t.window) := by
  have htaken := hc.taken_le
  cases h with
  | @write value tail hpc =>
    obtain ⟨cell, hcell⟩ : ∃ cell, s.inner.buffer[s.inner.idx tail]? = some cell :=
      ⟨_, List.getElem?_eq_getElem (s.inner.idx_lt tail)⟩
    have hset := s.inner.countP_setSlot (some value) hcell
    have hwindow : s.window + 1 = s.inner.tail.count + 1 -
        (s.inner.head.count + s.taken.length) := by
      rw [State.window, staged_eq_nil s (by simp [hpc]), List.length_nil]
      omega
    simp only [State.filled, State.window, State.staged, State.taken, Inner.setSlot_head,
      Inner.setSlot_tail, List.length_singleton, Option.isSome_some, if_true] at *
    refine ⟨by split at hset <;> omega, fun hunfit => ?_⟩
    cases cell with
    | none =>
      refine absurd ?_ hunfit
      intro value' tail' hpc'
      cases hpc.symm.trans hpc'
      exact hcell
    | some x =>
      simp only [Option.isSome_some, if_true] at hset
      omega
  | @storeTail value tail hpc =>
    refine ⟨le_of_eq ?_, fun hunfit => absurd trivial hunfit⟩
    simp [State.filled, State.window, State.staged, State.taken, hpc]
  | _ =>
    refine ⟨le_of_eq ?_, fun hunfit => absurd trivial hunfit⟩
    simp [State.filled, State.window, State.staged, State.taken, *]

/-- A pop empties one slot and makes the window shorter by one. -/
theorem PopStep.filled {s t : State w α} {a : PopAct} (h : PopStep s a t) (hc : Counters s) :
    t.consumer = .uninit ∨ t.filled + s.window ≤ s.filled + t.window := by
  cases h with
  | @read value head hpc hcell =>
    have hset := s.inner.countP_setSlot none hcell
    have hok := hc.consumer_ok
    rw [hpc] at hok
    have hlt := hok.2.trans_le hc.seenTail_le
    right
    simp [State.filled, State.window, State.staged, State.taken, hpc] at *
    omega
  | @uninit head hpc hcell => exact .inl rfl
  | @storeHead value head hpc =>
    right
    simp [State.filled, State.window, State.staged, State.taken, hpc]
  | _ =>
    right
    simp [State.filled, State.window, State.staged, State.taken, *]

namespace Lost

variable {s t : State w α} {n : ℕ}

/-- What is lost stays lost. -/
theorem pushStep {a : PushAct α} (h : Lost n s) (hc : Counters s) (hstep : PushStep s a t) :
    Lost n t := by
  rcases h with huninit | hle
  · exact .inl (hstep.frame.1.trans huninit)
  · have := (hstep.filled hc).1
    exact .inr (by omega)

/-- A push that does not fit loses one more. -/
theorem succ_of_pushStep {a : PushAct α} (h : Lost n s) (hc : Counters s) (hunfit : ¬ Fits s a)
    (hstep : PushStep s a t) : Lost (n + 1) t := by
  rcases h with huninit | hle
  · exact .inl (hstep.frame.1.trans huninit)
  · have := (hstep.filled hc).2 hunfit
    exact .inr (by omega)

theorem popStep {a : PopAct} (h : Lost n s) (hc : Counters s) (hstep : PopStep s a t) :
    Lost n t := by
  rcases h with huninit | hle
  · cases hstep <;> simp_all
  · refine (hstep.filled hc).imp_right fun hfilled => ?_
    omega

/-- Nothing is lost from an empty queue. -/
theorem eq_zero (h : Lost n s) (hpush : s.producer = .idle) (hpop : s.consumer = .idle)
    (hempty : s.inner.head.count = s.inner.tail.count) : n = 0 := by
  rcases h with huninit | hle
  · cases hpop.symm.trans huninit
  · rw [State.window, staged_eq_nil s (by simp [hpush]), taken_eq_nil s (by simp [hpop]),
      hempty, Nat.sub_self] at hle
    omega

end Lost

theorem lost_start (inner : Inner w α)
    (hbuf : inner.buffer = List.replicate inner.capacity.toNat none) : Lost 0 (.start inner) := by
  refine .inr ?_
  rw [Nat.add_zero, State.filled, State.start, hbuf, List.countP_replicate, if_neg (by simp)]
  exact Nat.zero_le _

/-- Without collisions every push fits. -/
theorem Slots.fits {s : State w α} (h : Slots s) (hc : Counters s) (hno : NoCollision s)
    (a : PushAct α) : Fits s a := by
  cases a with
  | write => exact fun value tail hpc => h.writable hc hno hpc
  | _ => trivial

end Ring
