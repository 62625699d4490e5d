import TympanLadspa.Foundations.HappensBefore
import TympanLadspa.Realtime.RingLinearizable

/-!
# No data race on the slots

The slots are plain memory: what the two sides do to one of them has to be ordered by the release
stores and acquire loads of the indices, and not just by the interleaving. An index that a side has
loaded publishes all the accesses to the slot that the other side makes before.
-/

namespace Ring

open Window (slot)

variable {w : ℕ} {α : Type*}

/-- The two indices. -/
inductive Index
  | head
  | tail
deriving Repr, DecidableEq

/-- The side that stores an index. -/
def Index.owner : Index → Side
  | head => .consumer
  | tail => .producer

/-- The side that an index is published to. -/
def Index.reader : Index → Side
  | head => .producer
  | tail => .consumer

namespace Act

def side : Act α → Side
  | push _ => .producer
  | pop _ => .consumer

/-- The release store of an index. -/
def stores : Index → Act α → Bool
  | .tail, push .storeTail => true
  | .head, pop .storeHead => true
  | _, _ => false

/-- The acquire load of an index, with the place it returns. A side loads its own index relaxed. -/
def loads : Index → Act α → Option ℕ
  | .tail, pop (.loadTail place) => some place
  | .head, push (.loadHead place) => some place
  | _, _ => none

theorem side_of_stores {a : Act α} {l : Index} (h : a.stores l = true) : a.side = l.owner := by
  unfold stores at h
  split at h
  · rfl
  · rfl
  · cases h

theorem side_of_loads {a : Act α} {l : Index} {place : ℕ} (h : a.loads l = some place) :
    a.side = l.reader := by
  unfold loads at h
  split at h
  · rfl
  · rfl
  · cases h

end Act

/-- The slot that an action reads or writes. -/
def State.slotOf (s : State w α) : Act α → Option ℕ
  | .push .write =>
    match s.producer with
    | .vacant _ tail => some (s.inner.idx tail)
    | _ => none
  | .pop .read =>
    match s.consumer with
    | .ready head => some (s.inner.idx head)
    | _ => none
  | _ => none

def execution (as : List (Act α)) : Execution (Act α) Side Index :=
  ⟨as, Act.side, Act.stores, Act.loads⟩

/-- The action at a place of a run reads or writes a slot. -/
def Accesses (inner : Inner w α) (as : List (Act α)) (i cell : ℕ) : Prop :=
  ∃ s a, Transition.run step (.start inner) (as.take i) = some s ∧ as[i]? = some a ∧
    s.slotOf a = some cell

-- ════════════════════════════════════════════════════════════════════════
-- Stores and loads of a run
-- ════════════════════════════════════════════════════════════════════════

/-- The stores made to an index. -/
def State.stored (s : State w α) : Index → ℕ
  | .head => s.inner.head.count
  | .tail => s.inner.tail.count

/-- The place of an index that the other side has last seen. -/
def State.seen (s : State w α) : Index → ℕ
  | .head => s.seenHead
  | .tail => s.seenTail

variable {inner : Inner w α} {s t : State w α} {as : List (Act α)} {l : Index} {i j cell : ℕ}

/-- **Step.** Stores count, and what a side has seen is a place it has loaded, which was there. -/
theorem step_index {a : Act α} (h : step s a = some t) (l : Index) :
    t.stored l = s.stored l + (if a.stores l then 1 else 0) ∧
      (t.seen l = s.seen l ∨ a.loads l = some (t.seen l)) ∧
      ∀ place, a.loads l = some place → place ≤ s.stored l := by
  rcases step_cases h with ⟨b, rfl, hpush⟩ | ⟨b, rfl, hpop⟩
  · cases hpush with
    | full hpc hseen hread hfull | vacant hpc hseen hread hroom =>
      have hplace := Location.le_count_of_read hread
      cases l <;> simp [Act.stores, Act.loads, State.stored, State.seen, hplace]
    | _ => cases l <;> simp [Act.stores, Act.loads, State.stored, State.seen]
  · cases hpop with
    | empty hpc hseen hread | ready hpc hseen hread hne =>
      have hplace := Location.le_count_of_read hread
      cases l <;> simp [Act.stores, Act.loads, State.stored, State.seen, hplace]
    | _ => cases l <;> simp [Act.stores, Act.loads, State.stored, State.seen]

/-- **Run.** -/
theorem run_index (hch : ∃ capacity, channel capacity = .ok inner)
    (hrun : Transition.run step (.start inner) as = some s) (l : Index) :
    s.stored l = as.countP (Act.stores l) ∧
      (s.seen l = 0 ∨ ∃ (i : ℕ) (a : Act α), as[i]? = some a ∧ a.loads l = some (s.seen l)) := by
  induction as using List.reverseRecOn generalizing s with
  | nil =>
    cases hrun
    obtain ⟨capacity, hch⟩ := hch
    obtain ⟨-, -, hhead, htail⟩ := channel_eq_ok hch
    cases l <;> simp [State.start, State.stored, State.seen, hhead, htail]
  | append_singleton as a ih =>
    obtain ⟨u, hu, hstep⟩ := Transition.run_concat_eq_some.mp hrun
    obtain ⟨hstored, hseen⟩ := ih hu
    obtain ⟨hstored', hload, -⟩ := step_index hstep l
    refine ⟨?_, ?_⟩
    · rw [hstored', hstored, List.countP_append, List.countP_singleton]
    · rcases hload with hsame | hload
      · rw [hsame]
        rcases hseen with hzero | ⟨i, b, hb, hloads⟩
        · exact .inl hzero
        · refine .inr ⟨i, b, ?_, hloads⟩
          rw [List.getElem?_append_left (List.getElem?_eq_some_iff.mp hb).1, hb]
      · exact .inr ⟨as.length, a, List.getElem?_concat_length .., hload⟩

/-- The state in front of an action of a run. -/
theorem exists_before (hrun : Transition.run step (.start inner) as = some s) {a : Act α}
    (ha : as[i]? = some a) :
    ∃ u t, Transition.run step (.start inner) (as.take i) = some u ∧ step u a = some t := by
  obtain ⟨hi, rfl⟩ := List.getElem?_eq_some_iff.mp ha
  rw [← List.take_append_drop i as, List.drop_eq_getElem_cons hi] at hrun
  obtain ⟨u, hu, hrest⟩ := Transition.run_append_eq_some.mp hrun
  obtain ⟨t, ht, -⟩ := Transition.run_cons_eq_some.mp hrest
  exact ⟨u, t, hu, ht⟩

/-- No load returns a store that is yet to come. -/
theorem causal_execution (hch : ∃ capacity, channel capacity = .ok inner)
    (hrun : Transition.run step (.start inner) as = some s) : (execution as).Causal := by
  rintro l place i ⟨a, ha, hload⟩
  obtain ⟨u, t, hu, hstep⟩ := exists_before hrun ha
  have hplace := (step_index hstep l).2.2 place hload
  rwa [(run_index hch hu l).1] at hplace

-- ════════════════════════════════════════════════════════════════════════
-- Accesses to slots
-- ════════════════════════════════════════════════════════════════════════

/-- An access is a write at the position of `tail` or a read at the position of `head`, and what
its side has seen of the other index says that it may be made. -/
theorem Accesses.cases {capacity : BitVec w} (hch : channel capacity = .ok inner)
    (h : Accesses inner as i cell) :
    ∃ u, Transition.run step (.start inner) (as.take i) = some u ∧
      ((as[i]? = some (.push .write) ∧
          cell = slot (2 ^ w) capacity.toNat ((execution as).stored .tail i) ∧
          (execution as).stored .tail i < u.seen .head + capacity.toNat ∧
          u.seen .head ≤ (execution as).stored .head i) ∨
        as[i]? = some (.pop .read) ∧
          cell = slot (2 ^ w) capacity.toNat ((execution as).stored .head i) ∧
          (execution as).stored .head i < u.seen .tail ∧
          u.seen .tail ≤ (execution as).stored .tail i) := by
  obtain ⟨u, a, hu, ha, hcell⟩ := h
  have hreach : Transition.Reaches step (.start inner) u := .of_run hu
  have hc := (Counters.of_channel hch).reaches hreach
  have hcapacity : u.inner.capacity = capacity :=
    (capacity_of_reaches hreach).trans (channel_eq_ok hch).2.1
  have htail : u.inner.tail.count = (execution as).stored .tail i :=
    (run_index ⟨capacity, hch⟩ hu .tail).1
  have hhead : u.inner.head.count = (execution as).stored .head i :=
    (run_index ⟨capacity, hch⟩ hu .head).1
  refine ⟨u, hu, ?_⟩
  unfold State.slotOf at hcell
  split at hcell
  · split at hcell
    · next value tail hpc =>
      have hok := hc.producer_ok
      rw [hpc] at hok
      obtain ⟨rfl, hroom⟩ := hok
      rw [Inner.idx_ofNat, hcapacity, htail] at hcell
      rw [hcapacity, htail] at hroom
      exact .inl ⟨ha, (Option.some.inj hcell).symm, hroom, hhead ▸ hc.seenHead_le⟩
    · cases hcell
  · split at hcell
    · next head hpc =>
      have hok := hc.consumer_ok
      rw [hpc] at hok
      obtain ⟨rfl, hready⟩ := hok
      rw [Inner.idx_ofNat, hcapacity, hhead] at hcell
      rw [hhead] at hready
      exact .inr ⟨ha, (Option.some.inj hcell).symm, hready, htail ▸ hc.seenTail_le⟩
    · cases hcell
  · cases hcell

/-- What a side has seen of an index it has loaded. -/
theorem loaded_of_seen (hch : ∃ capacity, channel capacity = .ok inner) {u : State w α}
    (hu : Transition.run step (.start inner) (as.take i) = some u) (hseen : 0 < u.seen l) :
    ∃ k < i, ∃ a : Act α, as[k]? = some a ∧ a.loads l = some (u.seen l) := by
  rcases (run_index hch hu l).2 with hzero | ⟨k, a, ha, hload⟩
  · omega
  · rw [List.getElem?_take] at ha
    split at ha
    · next hk => exact ⟨k, hk, a, ha, hload⟩
    · cases ha

/-- Positions less than a capacity apart have different slots. -/
theorem slot_ne {capacity : BitVec w} {lo hi : ℕ}
    (hno : capacity.toNat ∣ 2 ^ w ∨ hi < 2 ^ w) (hlt : lo < hi)
    (hhi : hi < lo + capacity.toNat) :
    slot (2 ^ w) capacity.toNat lo ≠ slot (2 ^ w) capacity.toNat hi := by
  have hcapacity := capacity.isLt
  have hdistinct : Window.Distinct (slot (2 ^ w) capacity.toNat) lo (hi - lo + 1) := by
    rcases hno with hdvd | hsmall
    · exact Window.distinct_of_dvd hcapacity.le hdvd (by omega)
    · exact Window.distinct_of_le hcapacity.le (by omega) (by omega)
  have hne := hdistinct 0 (hi - lo) (by omega) (by omega)
  rwa [Nat.add_zero, Nat.add_sub_of_le hlt.le] at hne

/-- What a side has done in front of its store of a place is before what the other side does once
it has seen that place. -/
theorem before_of_seen (hch : ∃ capacity, channel capacity = .ok inner)
    (hrun : Transition.run step (.start inner) as = some s) {u : State w α} {a b : Act α}
    (ha : as[i]? = some a) (howner : a.side = l.owner) (hplain : a.stores l = false)
    (hb : as[j]? = some b) (hreader : b.side = l.reader)
    (hu : Transition.run step (.start inner) (as.take j) = some u)
    (hseen : (execution as).stored l i < u.seen l) : (execution as).Before i j := by
  obtain ⟨k, hk, c, hc, hload⟩ := loaded_of_seen hch hu (Nat.zero_lt_of_lt hseen)
  exact Execution.before_of_load (causal_execution hch hrun) ha
    (fun c hstores => (Act.side_of_stores hstores).trans howner.symm) hplain hseen hc hload hk hb
    ((Act.side_of_loads hload).trans hreader.symm)

/-- **No data race.** In any run of a fresh queue, with stale loads or not, as long as the capacity
divides the range of the counters or fewer values than that have been accepted: two accesses to
one slot are ordered by the program or by release stores of the indices and acquire loads of
them, and never against the time they were made at. -/
theorem race_free {capacity : BitVec w} (hch : channel capacity = .ok inner)
    (hrun : Transition.run step (.start inner) as = some s)
    (hno : capacity.toNat ∣ 2 ^ w ∨ s.accepted.length < 2 ^ w) :
    (∀ i j, (execution as).Before i j → i < j) ∧
      ∀ i j cell, i < j → Accesses inner as i cell → Accesses inner as j cell →
        (execution as).Before i j := by
  have hcausal := causal_execution ⟨capacity, hch⟩ hrun
  refine ⟨fun i j => Execution.Before.lt hcausal, fun i j cell hij hi hj => ?_⟩
  have hmono : ∀ l, (execution as).stored l i ≤ (execution as).stored l j :=
    fun l => Execution.stored_mono hij.le
  -- a position is one of the counters
  have hbound : ∀ {n : ℕ}, n ≤ (execution as).stored .tail j →
      capacity.toNat ∣ 2 ^ w ∨ n < 2 ^ w := by
    intro n hn
    refine hno.imp_right fun hsmall => ?_
    have htail : s.inner.tail.count = as.countP (Act.stores .tail) :=
      (run_index ⟨capacity, hch⟩ hrun .tail).1
    have hle : (execution as).stored .tail j ≤ as.countP (Act.stores .tail) :=
      (List.take_prefix j as).countP_le
    rw [((Counters.of_channel hch).reaches (.of_run hrun)).accepted_length] at hsmall
    omega
  obtain ⟨u, hu, ⟨ha, rfl, hroom, hheads⟩ | ⟨ha, rfl, hready, htails⟩⟩ := hi.cases hch <;>
    obtain ⟨v, hv, ⟨hb, hcell, hroom', hheads'⟩ | ⟨hb, hcell, hready', htails'⟩⟩ := hj.cases hch
  · exact Execution.Program.before ⟨hij, _, _, ha, hb, rfl⟩
  · refine before_of_seen ⟨capacity, hch⟩ hrun (l := .tail) ha rfl rfl hb rfl hv ?_
    -- the value that is read has been stored, or the producer would have run into it
    by_contra hle
    have hheads := hmono .head
    exact slot_ne (hbound (hmono .tail)) (show (execution as).stored .head j < _ by omega)
      (by omega) hcell.symm
  · refine before_of_seen ⟨capacity, hch⟩ hrun (l := .head) ha rfl rfl hb rfl hv ?_
    by_contra hle
    have htails := hmono .tail
    exact slot_ne (hbound le_rfl) (show (execution as).stored .head i < _ by omega)
      (by omega) hcell
  · exact Execution.Program.before ⟨hij, _, _, ha, hb, rfl⟩

/-- A queue of one. -/
def single : Inner 2 ℕ := ⟨[none], 1#2, .new 0, .new 0, by decide, rfl⟩

/-- Its slot is filled, emptied and filled again. -/
def refill : List (Act ℕ) :=
  [.push (.loadTail 7), .push (.loadHead 0), .push .write, .push .storeTail, .pop .loadHead,
    .pop (.loadTail 1), .pop .read, .pop .storeHead, .push (.loadTail 8), .push (.loadHead 1),
    .push .write]

theorem refill_race_free : Accesses single refill 2 0 ∧ Accesses single refill 6 0 ∧
    Accesses single refill 10 0 ∧ (execution refill).Before 2 6 ∧
      (execution refill).Before 6 10 := by
  obtain ⟨s, hrun⟩ : ∃ s, Transition.run step (.start single) refill = some s := ⟨_, rfl⟩
  have hfirst : Accesses single refill 2 0 := ⟨_, _, rfl, rfl, rfl⟩
  have hread : Accesses single refill 6 0 := ⟨_, _, rfl, rfl, rfl⟩
  have hsecond : Accesses single refill 10 0 := ⟨_, _, rfl, rfl, rfl⟩
  have hch : channel 1#2 = .ok single := rfl
  obtain ⟨-, hordered⟩ := race_free hch hrun (.inl (by decide))
  exact ⟨hfirst, hread, hsecond, hordered 2 6 0 (by decide) hfirst hread,
    hordered 6 10 0 (by decide) hread hsecond⟩

end Ring
