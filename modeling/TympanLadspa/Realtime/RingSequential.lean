import TympanLadspa.Foundations.Fifo
import TympanLadspa.Realtime.RingInvariant

/-!
# Uninterrupted calls on the ring

Sequences of whole `try_push` and `try_pop` calls, compared with the bounded FIFO
queue they implement, also across the wrap of the counters. `SafePush` is the exact
condition on the counters under which a push does not hit the slot of a live item.
-/

namespace Ring

open Window (slot Distinct Holds)
open Fifo (Op Reply)

variable {w : ℕ} {α : Type*}

/-- One whole call; `none` when it would read an uninitialised slot. -/
def call (inner : Inner w α) : Op α → Option (Reply α × Inner w α)
  | .push value =>
    match tryPush inner value with
    | (.ok (), inner') => some (.pushed, inner')
    | (.error value', inner') => some (.full value', inner')
  | .pop =>
    match tryPop inner with
    | some (some value, inner') => some (.popped value, inner')
    | some (none, inner') => some (.empty, inner')
    | none => none

/-- The replies of a sequence of calls and the storage it leaves. -/
def calls : Inner w α → List (Op α) → Option (List (Reply α) × Inner w α)
  | inner, [] => some ([], inner)
  | inner, op :: ops =>
    (call inner op).bind fun r =>
      (calls r.2 ops).map fun rs => (r.1 :: rs.1, rs.2)

/-- The counters of storage that only whole calls have touched. -/
structure Settled (inner : Inner w α) : Prop where
  heads : inner.head.Counts (BitVec.ofNat w)
  tails : inner.tail.Counts (BitVec.ofNat w)
  head_le : inner.head.count ≤ inner.tail.count
  occupancy_le : inner.tail.count - inner.head.count ≤ inner.capacity.toNat

/-- Distinct live positions lie in distinct slots. -/
def Inner.LiveDistinct (inner : Inner w α) : Prop :=
  ∀ i j, i < j → j < (inner.tail.last - inner.head.last).toNat →
    inner.idx (inner.head.last + BitVec.ofNat w i) ≠
      inner.idx (inner.head.last + BitVec.ofNat w j)

/-- The next push is refused, or the slot of `tail` is not the slot of a live item:
the counter is not among the first `2 ^ w mod capacity` values after a wrap, or fewer
than that many items are live. -/
def Inner.SafePush (inner : Inner w α) : Prop :=
  inner.capacity ≤ inner.tail.last - inner.head.last ∨
    2 ^ w % inner.capacity.toNat ≤ inner.tail.last.toNat ∨
    (inner.tail.last - inner.head.last).toNat < 2 ^ w % inner.capacity.toNat

instance (inner : Inner w α) : Decidable inner.SafePush :=
  inferInstanceAs (Decidable (_ ∨ _ ∨ _))

namespace Settled

variable {inner : Inner w α}

theorem of_channel {capacity : BitVec w} (h : channel capacity = .ok inner) : Settled inner := by
  have hc := Counters.of_channel h
  exact ⟨hc.heads, hc.tails, hc.head_le_tail, hc.occupancy_le⟩

theorem occupancy (h : Settled inner) :
    (inner.tail.last - inner.head.last).toNat = inner.tail.count - inner.head.count := by
  have hle := h.occupancy_le
  have hcap := inner.capacity_lt
  rw [h.tails.last_eq, h.heads.last_eq, Window.toNat_ofNat_sub h.head_le (by omega)]

theorem full_iff (h : Settled inner) :
    inner.capacity ≤ inner.tail.last - inner.head.last ↔
      inner.tail.count - inner.head.count = inner.capacity.toNat := by
  have hle := h.occupancy_le
  rw [BitVec.le_def, h.occupancy]
  omega

theorem empty_iff (h : Settled inner) :
    inner.head.last = inner.tail.last ↔ inner.head.count = inner.tail.count := by
  have hle := h.occupancy_le
  have hcap := inner.capacity_lt
  rw [h.tails.last_eq, h.heads.last_eq]
  exact Window.ofNat_eq_iff h.head_le (by omega)

theorem liveDistinct_iff (h : Settled inner) :
    inner.LiveDistinct ↔ Distinct (slot (2 ^ w) inner.capacity.toNat) inner.head.count
      (inner.tail.count - inner.head.count) := by
  simp only [Inner.LiveDistinct, h.occupancy]
  simp only [h.heads.last_eq, ← BitVec.ofNat_add, Inner.idx_ofNat, Distinct]

/-- `SafePush` is exactly what one more position needs to keep the window distinct. -/
theorem safePush_iff (h : Settled inner)
    (hroom : inner.tail.count - inner.head.count < inner.capacity.toNat)
    (hd : Distinct (slot (2 ^ w) inner.capacity.toNat) inner.head.count
      (inner.tail.count - inner.head.count)) :
    inner.SafePush ↔ Distinct (slot (2 ^ w) inner.capacity.toNat) inner.head.count
      (inner.tail.count - inner.head.count + 1) := by
  have hcap := inner.capacity_lt
  have hle := h.head_le
  have htail : inner.tail.last.toNat = inner.tail.count % 2 ^ w := by
    rw [h.tails.last_eq, BitVec.toNat_ofNat]
  have hend : inner.head.count + (inner.tail.count - inner.head.count) = inner.tail.count := by
    omega
  unfold Inner.SafePush
  rw [h.full_iff, htail, h.occupancy]
  constructor
  · intro hsafe i j hij hj
    rcases Nat.lt_or_ge j (inner.tail.count - inner.head.count) with hlt | hge
    · exact hd i j hij hlt
    · obtain rfl : j = inner.tail.count - inner.head.count := by omega
      rw [hend, ne_eq, Window.slot_eq_iff hcap.le (by omega) (by omega)]
      omega
  · intro hd'
    by_contra hunsafe
    -- the position `2 ^ w mod capacity` behind the tail has the slot of the tail
    refine hd' (inner.tail.count - inner.head.count - 2 ^ w % inner.capacity.toNat)
      (inner.tail.count - inner.head.count) (by omega) (by omega) ?_
    rw [hend, Window.slot_eq_iff hcap.le (by omega) (by omega)]
    omega

end Settled

theorem call_push_of_full {inner : Inner w α}
    (h : inner.capacity ≤ inner.tail.last - inner.head.last) (value : α) :
    call inner (.push value) = some (.full value, inner) := by
  simp only [call, tryPush, if_pos h]

theorem call_push_of_room {inner : Inner w α}
    (h : ¬ inner.capacity ≤ inner.tail.last - inner.head.last) (value : α) :
    call inner (.push value) = some (.pushed,
      (inner.setSlot (inner.idx inner.tail.last) (some value)).storeTail
        (inner.tail.last + 1)) := by
  simp only [call, tryPush, if_neg h]

theorem call_pop_of_empty {inner : Inner w α} (h : inner.head.last = inner.tail.last) :
    call inner .pop = some (.empty, inner) := by
  simp only [call, tryPop, if_pos h]

theorem call_pop_of_cell {inner : Inner w α} {value : α} (h : inner.head.last ≠ inner.tail.last)
    (hcell : inner.buffer[inner.idx inner.head.last]? = some (some value)) :
    call inner .pop = some (.popped value,
      (inner.setSlot (inner.idx inner.head.last) none).storeHead (inner.head.last + 1)) := by
  simp only [call, tryPop, if_neg h, hcell]

/-- The four outcomes of a call. -/
theorem call_cases {inner inner' : Inner w α} {op : Op α} {reply : Reply α}
    (h : call inner op = some (reply, inner')) :
    (∃ value, op = .push value ∧ inner.capacity ≤ inner.tail.last - inner.head.last ∧
      reply = .full value ∧ inner' = inner) ∨
    (∃ value, op = .push value ∧ ¬ inner.capacity ≤ inner.tail.last - inner.head.last ∧
      reply = .pushed ∧
      inner' = (inner.setSlot (inner.idx inner.tail.last) (some value)).storeTail
        (inner.tail.last + 1)) ∨
    (op = .pop ∧ inner.head.last = inner.tail.last ∧ reply = .empty ∧ inner' = inner) ∨
    (∃ value, op = .pop ∧ inner.head.last ≠ inner.tail.last ∧ reply = .popped value ∧
      inner.buffer[inner.idx inner.head.last]? = some (some value) ∧
      inner' = (inner.setSlot (inner.idx inner.head.last) none).storeHead
        (inner.head.last + 1)) := by
  cases op with
  | push value =>
    by_cases hfull : inner.capacity ≤ inner.tail.last - inner.head.last
    · rw [call_push_of_full hfull] at h
      cases h
      exact .inl ⟨value, rfl, hfull, rfl, rfl⟩
    · rw [call_push_of_room hfull] at h
      cases h
      exact .inr (.inl ⟨value, rfl, hfull, rfl, rfl⟩)
  | pop =>
    by_cases hempty : inner.head.last = inner.tail.last
    · rw [call_pop_of_empty hempty] at h
      cases h
      exact .inr (.inr (.inl ⟨rfl, hempty, rfl, rfl⟩))
    · simp only [call, tryPop, if_neg hempty] at h
      cases hcell : inner.buffer[inner.idx inner.head.last]? with
      | none => simp [hcell] at h
      | some cell =>
        cases cell with
        | none => simp [hcell] at h
        | some value =>
          simp only [hcell, Option.some.injEq, Prod.mk.injEq] at h
          obtain ⟨rfl, rfl⟩ := h
          exact .inr (.inr (.inr ⟨value, rfl, hempty, rfl, rfl, rfl⟩))

private theorem reaches_push {s t : State w α} {a : PushAct α} (h : PushStep s a t) :
    Transition.Reaches step s t :=
  .single (a := .push a) (pushStep_eq_some_iff.mpr h)

private theorem reaches_pop {s t : State w α} {a : PopAct} (h : PopStep s a t) :
    Transition.Reaches step s t :=
  .single (a := .pop a) (popStep_eq_some_iff.mpr h)

/-- A call of an idle half, run without interruption on current loads, is a run of its
split steps. -/
theorem call_reaches {s : State w α} (hc : Counters s) (hpush : s.producer = .idle)
    (hpop : s.consumer = .idle) {op : Op α} {reply : Reply α} {inner' : Inner w α}
    (h : call s.inner op = some (reply, inner')) :
    ∃ t, Transition.Reaches step s t ∧ t.inner = inner' ∧ t.producer = .idle ∧
      t.consumer = .idle := by
  have hhead := s.inner.head.read_count
  have htail := s.inner.tail.read_count
  obtain ⟨value, -, hfull, -, rfl⟩ | ⟨_, -, hroom, -, rfl⟩ | ⟨-, heq, -, rfl⟩ |
    ⟨_, -, hne, -, hcell, rfl⟩ := call_cases h
  · have hload : PushStep s (.loadTail value) _ := .loadTail hpush
    refine ⟨_, ((reaches_push hload).trans
      (reaches_push (.full rfl hc.seenHead_le hhead hfull))).trans
        (reaches_push (.returnErr rfl)), rfl, rfl, hpop⟩
  · refine ⟨_, (((reaches_push (.loadTail hpush)).trans
      (reaches_push (.vacant rfl hc.seenHead_le hhead hroom))).trans
        (reaches_push (.write rfl))).trans (reaches_push (.storeTail rfl)), rfl, rfl, hpop⟩
  · refine ⟨_, ((reaches_pop (.loadHead hpop)).trans
      (reaches_pop (.empty rfl hc.seenTail_le (heq ▸ htail)))).trans
        (reaches_pop (.returnNone rfl)), rfl, hpush, rfl⟩
  · refine ⟨_, (((reaches_pop (.loadHead hpop)).trans
      (reaches_pop (.ready rfl hc.seenTail_le htail hne))).trans
        (reaches_pop (.read rfl hcell))).trans (reaches_pop (.storeHead rfl)), rfl, hpush, rfl⟩

theorem call_capacity {inner inner' : Inner w α} {op : Op α} {reply : Reply α}
    (h : call inner op = some (reply, inner')) : inner'.capacity = inner.capacity := by
  obtain ⟨_, -, -, -, rfl⟩ | ⟨_, -, -, -, rfl⟩ | ⟨-, -, -, rfl⟩ | ⟨_, -, -, -, -, rfl⟩ :=
    call_cases h <;> rfl

/-- Only a successful pop moves `head`. -/
theorem call_head_count {inner inner' : Inner w α} {op : Op α} {reply : Reply α}
    (h : call inner op = some (reply, inner')) (hne : ∀ value, reply ≠ .popped value) :
    inner'.head.count = inner.head.count := by
  obtain ⟨_, -, -, -, rfl⟩ | ⟨_, -, -, -, rfl⟩ | ⟨-, -, -, rfl⟩ | ⟨value, -, -, rfl, -, -⟩ :=
    call_cases h
  · rfl
  · rfl
  · rfl
  · exact absurd rfl (hne value)

/-- Only a successful push moves `tail`. -/
theorem call_tail_count {inner inner' : Inner w α} {op : Op α} {reply : Reply α}
    (h : call inner op = some (reply, inner')) (hne : reply ≠ .pushed) :
    inner'.tail.count = inner.tail.count := by
  obtain ⟨_, -, -, -, rfl⟩ | ⟨_, -, -, rfl, -⟩ | ⟨-, -, -, rfl⟩ | ⟨_, -, -, -, -, rfl⟩ :=
    call_cases h
  · rfl
  · exact absurd rfl hne
  · rfl
  · rfl

theorem Settled.storeTail {inner : Inner w α} (h : Settled inner)
    (hroom : inner.tail.count - inner.head.count < inner.capacity.toNat) (i : ℕ)
    (cell : Option α) :
    Settled ((inner.setSlot i cell).storeTail (inner.tail.last + 1)) where
  heads := h.heads
  tails := by
    have := h.tails.store
    rwa [BitVec.ofNat_add, ← h.tails.last_eq] at this
  head_le := by simpa using Nat.le_succ_of_le h.head_le
  occupancy_le := by
    have := h.head_le
    simp only [Inner.storeTail_tail, Inner.setSlot_tail, Location.count_store,
      Inner.storeTail_head, Inner.setSlot_head, Inner.storeTail_capacity, Inner.setSlot_capacity]
    omega

theorem Settled.storeHead {inner : Inner w α} (h : Settled inner)
    (hne : inner.head.count ≠ inner.tail.count) (i : ℕ) (cell : Option α) :
    Settled ((inner.setSlot i cell).storeHead (inner.head.last + 1)) where
  heads := by
    have := h.heads.store
    rwa [BitVec.ofNat_add, ← h.heads.last_eq] at this
  tails := h.tails
  head_le := by
    have := h.head_le
    simp only [Inner.storeHead_head, Inner.setSlot_head, Location.count_store,
      Inner.storeHead_tail, Inner.setSlot_tail]
    omega
  occupancy_le := by
    have := h.occupancy_le
    simp only [Inner.storeHead_tail, Inner.setSlot_tail, Inner.storeHead_head,
      Inner.setSlot_head, Location.count_store, Inner.storeHead_capacity, Inner.setSlot_capacity]
    omega

theorem Settled.call {inner inner' : Inner w α} {op : Op α} {reply : Reply α}
    (h : Settled inner) (hcall : call inner op = some (reply, inner')) : Settled inner' := by
  have hle := h.occupancy_le
  obtain ⟨_, -, -, -, rfl⟩ | ⟨_, -, hroom, -, rfl⟩ | ⟨-, -, -, rfl⟩ | ⟨_, -, hne, -, -, rfl⟩ :=
    call_cases hcall
  · exact h
  · rw [h.full_iff] at hroom
    exact h.storeTail (by omega) _ _
  · exact h
  · rw [ne_eq, h.empty_iff] at hne
    exact h.storeHead hne _ _

/-- The storage holds exactly the queue `q`, at distinct slots. -/
structure Backs (inner : Inner w α) (q : List α) : Prop extends Settled inner where
  length_eq : inner.tail.count = inner.head.count + q.length
  holds : Holds (slot (2 ^ w) inner.capacity.toNat) inner.buffer inner.head.count q
  distinct : Distinct (slot (2 ^ w) inner.capacity.toNat) inner.head.count q.length

namespace Backs

variable {inner : Inner w α} {q : List α}

theorem of_channel {capacity : BitVec w} (h : channel capacity = .ok inner) :
    Backs inner ([] : List α) := by
  obtain ⟨hbuf, hcap, hhead, htail⟩ := channel_eq_ok h
  exact
    { Settled.of_channel h with
      length_eq := by rw [hhead, htail]; rfl
      holds := by rw [hbuf]; exact Window.holds_replicate _
      distinct := fun i j _ hj => absurd hj (Nat.not_lt_zero j) }

theorem liveDistinct (h : Backs inner q) : inner.LiveDistinct := by
  rw [h.toSettled.liveDistinct_iff, h.length_eq, Nat.add_sub_cancel_left]
  exact h.distinct

/-- **Call lemma.** On storage that holds a queue, a call answers as the bounded FIFO
queue does and leaves storage that holds the queue it leaves. -/
theorem call (h : Backs inner q) (op : Op α) (hsafe : ∀ value, op = .push value → inner.SafePush) :
    ∃ inner', Ring.call inner op =
        some ((Fifo.step inner.capacity.toNat q op).1, inner') ∧
      inner'.capacity = inner.capacity ∧
      Backs inner' (Fifo.step inner.capacity.toNat q op).2 := by
  have hlen := h.length_eq
  have hle := h.occupancy_le
  cases op with
  | push value =>
    by_cases hfull : inner.capacity ≤ inner.tail.last - inner.head.last
    · refine ⟨inner, ?_, rfl, ?_⟩ <;> rw [h.toSettled.full_iff] at hfull
      · rw [Fifo.step_push_of_le (by omega), call_push_of_full (h.toSettled.full_iff.mpr hfull)]
      · rw [Fifo.step_push_of_le (by omega)]
        exact h
    · have hroom := hfull
      rw [h.toSettled.full_iff] at hroom
      rw [Fifo.step_push_of_lt (by omega)]
      refine ⟨_, call_push_of_room hfull value, rfl, ?_⟩
      have hd : Distinct (slot (2 ^ w) inner.capacity.toNat) inner.head.count (q.length + 1) := by
        have := (h.toSettled.safePush_iff (by omega)
          (h.toSettled.liveDistinct_iff.mp h.liveDistinct)).mp (hsafe value rfl)
        rwa [hlen, Nat.add_sub_cancel_left] at this
      have hidx : inner.idx inner.tail.last = slot (2 ^ w) inner.capacity.toNat
          (inner.head.count + q.length) := by
        rw [h.tails.last_eq, Inner.idx_ofNat, hlen]
      exact
        { h.toSettled.storeTail (by omega) _ _ with
          length_eq := by simp [hlen, Nat.add_assoc]
          holds := by
            have := h.holds.push (x := value) hd (hidx ▸ inner.idx_lt _)
            rwa [← hidx] at this
          distinct := by simpa using hd }
  | pop =>
    cases q with
    | nil =>
      have hempty : inner.head.last = inner.tail.last := by
        rw [h.toSettled.empty_iff, hlen, List.length_nil, Nat.add_zero]
      exact ⟨inner, call_pop_of_empty hempty, rfl, h⟩
    | cons x rest =>
      rw [List.length_cons] at hlen
      have hne : inner.head.count ≠ inner.tail.count := by omega
      have hidx : inner.idx inner.head.last = slot (2 ^ w) inner.capacity.toNat
          inner.head.count := by
        rw [h.heads.last_eq, Inner.idx_ofNat]
      refine ⟨_, call_pop_of_cell ((not_congr h.toSettled.empty_iff).mpr hne)
        (hidx ▸ h.holds.head), rfl, ?_⟩
      exact
        { h.toSettled.storeHead hne _ _ with
          length_eq := by
            simp only [Inner.storeHead_tail, Inner.setSlot_tail, Inner.storeHead_head,
              Inner.setSlot_head, Location.count_store, Fifo.step_pop_cons]
            omega
          holds := by simpa [hidx] using h.holds.pop h.distinct
          distinct := by simpa using h.distinct.tail }

end Backs

theorem calls_append (inner : Inner w α) (ops ops' : List (Op α)) :
    calls inner (ops ++ ops') = (calls inner ops).bind fun rs =>
      (calls rs.2 ops').map fun rs' => (rs.1 ++ rs'.1, rs'.2) := by
  induction ops generalizing inner with
  | nil =>
    simp only [List.nil_append, calls, Option.bind_some]
    cases calls inner ops' <;> rfl
  | cons op ops ih =>
    simp only [List.cons_append, calls]
    cases call inner op with
    | none => rfl
    | some r =>
      simp only [Option.bind_some, ih]
      cases calls r.2 ops with
      | none => rfl
      | some rs =>
        simp only [Option.bind_some, Option.map_some]
        cases calls rs.2 ops' <;> rfl

theorem calls_singleton (inner : Inner w α) (op : Op α) :
    calls inner [op] = (call inner op).map fun r => ([r.1], r.2) := by
  simp only [calls]
  cases call inner op <;> rfl

/-- Append calls that run. -/
theorem calls_append_of {inner inner' inner'' : Inner w α} {ops ops' : List (Op α)}
    {rs rs' : List (Reply α)} (h : calls inner ops = some (rs, inner'))
    (h' : calls inner' ops' = some (rs', inner'')) :
    calls inner (ops ++ ops') = some (rs ++ rs', inner'') := by
  rw [calls_append, h, Option.bind_some, h']
  rfl

/-- Calls keep the counters settled and the capacity. -/
theorem Settled.calls {inner inner' : Inner w α} {ops : List (Op α)} {replies : List (Reply α)}
    (h : Settled inner) (hcalls : calls inner ops = some (replies, inner')) :
    Settled inner' ∧ inner'.capacity = inner.capacity := by
  induction ops generalizing inner replies with
  | nil =>
    cases hcalls
    exact ⟨h, rfl⟩
  | cons op ops ih =>
    obtain ⟨r, hcall, hrest⟩ := Option.bind_eq_some_iff.mp hcalls
    obtain ⟨rs, hrs, heq⟩ := Option.map_eq_some_iff.mp hrest
    cases heq
    obtain ⟨hset, hcap⟩ := ih (h.call hcall) hrs
    exact ⟨hset, hcap.trans (call_capacity hcall)⟩

/-- Every prefix of the calls answers as the bounded FIFO queue does (no item lost,
overwritten or returned twice) and leaves the live positions in distinct slots. -/
def Faithful (inner : Inner w α) (ops : List (Op α)) : Prop :=
  ∀ ops', ops' <+: ops → ∃ inner',
    calls inner ops' = some ((Fifo.exec inner.capacity.toNat [] ops').1, inner') ∧
      inner'.LiveDistinct

/-- Every push of the sequence is made at counters where it is safe. -/
def PushesSafe (inner : Inner w α) (ops : List (Op α)) : Prop :=
  ∀ ops' value replies inner', ops' ++ [.push value] <+: ops →
    calls inner ops' = some (replies, inner') → inner'.SafePush

/-- A sequence of whole calls is a run of the interleaved system. -/
theorem calls_reaches {s : State w α} (hc : Counters s) (hpush : s.producer = .idle)
    (hpop : s.consumer = .idle) {ops : List (Op α)} {replies : List (Reply α)}
    {inner' : Inner w α} (h : calls s.inner ops = some (replies, inner')) :
    ∃ t, Transition.Reaches step s t ∧ t.inner = inner' ∧ t.producer = .idle ∧
      t.consumer = .idle := by
  induction ops generalizing s replies with
  | nil =>
    cases h
    exact ⟨s, .refl s, rfl, hpush, hpop⟩
  | cons op ops ih =>
    obtain ⟨r, hcall, hrest⟩ := Option.bind_eq_some_iff.mp h
    obtain ⟨rs, hrs, heq⟩ := Option.map_eq_some_iff.mp hrest
    cases heq
    obtain ⟨t, hreach, hinner, hpush', hpop'⟩ := call_reaches hc hpush hpop hcall
    rw [← hinner] at hrs
    obtain ⟨u, hreach', hu⟩ := ih (hc.reaches hreach) hpush' hpop' hrs
    exact ⟨u, hreach.trans hreach', hu⟩

theorem Backs.calls {inner : Inner w α} (h : Backs inner ([] : List α)) {ops : List (Op α)}
    (hsafe : PushesSafe inner ops) {ops' : List (Op α)} (hpre : ops' <+: ops) :
    ∃ inner', Ring.calls inner ops' = some ((Fifo.exec inner.capacity.toNat [] ops').1, inner') ∧
      inner'.capacity = inner.capacity ∧
      Backs inner' (Fifo.exec inner.capacity.toNat [] ops').2 := by
  induction ops' using List.reverseRecOn with
  | nil => exact ⟨inner, rfl, rfl, h⟩
  | append_singleton ops' op ih =>
    obtain ⟨inner', hcalls, hcap, hback⟩ := ih ((List.prefix_append _ _).trans hpre)
    have hop : ∀ value, op = .push value → inner'.SafePush := by
      rintro value rfl
      exact hsafe ops' value _ inner' hpre hcalls
    obtain ⟨inner'', hcall, hcap', hback'⟩ := hback.call op hop
    rw [hcap] at hcall hback'
    refine ⟨inner'', ?_, hcap'.trans hcap, ?_⟩
    · rw [Fifo.exec_append]
      exact calls_append_of hcalls (by rw [calls_singleton, hcall]; rfl)
    · rw [Fifo.exec_append]
      exact hback'

/-- A sequence of calls is answered faithfully exactly when all its pushes are safe. -/
theorem faithful_iff_pushesSafe {inner : Inner w α} (h : Backs inner ([] : List α))
    (ops : List (Op α)) : Faithful inner ops ↔ PushesSafe inner ops := by
  constructor
  · intro hgood ops' value replies inner' hpre hcalls
    obtain ⟨_, hcalls', hlive⟩ := hgood ops' ((List.prefix_append _ _).trans hpre)
    obtain ⟨hset, -⟩ := h.toSettled.calls hcalls
    rw [hcalls] at hcalls'
    obtain ⟨-, rfl⟩ := Prod.mk.inj (Option.some.inj hcalls')
    rw [hset.liveDistinct_iff] at hlive
    by_cases hfull : inner'.capacity ≤ inner'.tail.last - inner'.head.last
    · exact .inl hfull
    -- the push goes through, and its state is one of those with distinct slots
    obtain ⟨_, hcalls'', hlive'⟩ := hgood (ops' ++ [.push value]) hpre
    rw [calls_append_of hcalls (by rw [calls_singleton, call_push_of_room hfull]; rfl)] at hcalls''
    obtain ⟨-, rfl⟩ := Prod.mk.inj (Option.some.inj hcalls'')
    have hroom := hfull
    have hle := hset.occupancy_le
    have hht := hset.head_le
    rw [hset.full_iff] at hroom
    rw [(hset.storeTail (by omega) _ _).liveDistinct_iff] at hlive'
    refine (hset.safePush_iff (by omega) hlive).mpr ?_
    simpa [Nat.sub_add_comm hht] using hlive'
  · intro hsafe ops' hpre
    obtain ⟨inner', hcalls, -, hback⟩ := h.calls hsafe hpre
    exact ⟨inner', hcalls, hback.liveDistinct⟩

-- ════════════════════════════════════════════════════════════════════════
-- Which capacities survive the wrap
-- ════════════════════════════════════════════════════════════════════════

/-- `n` rounds of one push and one pop. -/
def alternate (value : α) : ℕ → List (Op α)
  | 0 => []
  | n + 1 => alternate value n ++ [.push value, .pop]

/-- Drive the counters to the last multiple of the capacity before the wrap, then push
until `tail` has wrapped and stands at the slot of `head`. -/
def wrapOps (w capacity : ℕ) (value : α) : List (Op α) :=
  alternate value (2 ^ w - 2 ^ w % capacity) ++
    List.replicate (2 ^ w % capacity) (.push value) ++ [.push value]

/-- When the capacity divides the range of the counters every push is safe. -/
theorem pushesSafe_of_dvd {inner : Inner w α} (h : Settled inner)
    (hdvd : inner.capacity.toNat ∣ 2 ^ w) (ops : List (Op α)) : PushesSafe inner ops := by
  intro ops' value replies inner' _ hcalls
  obtain ⟨-, hcap⟩ := h.calls hcalls
  rw [← hcap] at hdvd
  refine .inr (.inl ?_)
  rw [Nat.mod_eq_zero_of_dvd hdvd]
  exact Nat.zero_le _

namespace Backs

variable {inner : Inner w α}

/-- A push into an empty queue is safe. -/
theorem safePush_nil (h : Backs inner ([] : List α)) : inner.SafePush := by
  have hlen := h.length_eq
  rw [List.length_nil, Nat.add_zero] at hlen
  refine .inr ?_
  rw [h.toSettled.occupancy, hlen, Nat.sub_self]
  omega

/-- A push is safe while the counter has not wrapped. -/
theorem safePush_of_lt {q : List α} (h : Backs inner q) (hroom : q.length < inner.capacity.toNat)
    (hlt : inner.head.count + q.length < 2 ^ w) : inner.SafePush := by
  have hlen := h.length_eq
  have hcap := inner.capacity_lt
  refine (h.toSettled.safePush_iff (by omega)
    (h.toSettled.liveDistinct_iff.mp h.liveDistinct)).mpr ?_
  exact Window.distinct_of_le hcap.le (by omega) (by omega)

theorem alternate (h : Backs inner ([] : List α)) (value : α) (n : ℕ) :
    ∃ rs inner', Ring.calls inner (Ring.alternate value n) = some (rs, inner') ∧
      inner'.capacity = inner.capacity ∧ Backs inner' ([] : List α) ∧
      inner'.head.count = inner.head.count + n := by
  induction n with
  | zero => exact ⟨[], inner, rfl, rfl, h, rfl⟩
  | succ n ih =>
    obtain ⟨rs, i₁, hcalls, hcap, hback, hhead⟩ := ih
    obtain ⟨i₂, hpush, hcap₂, hback₂⟩ := hback.call (.push value) fun _ _ => hback.safePush_nil
    rw [Fifo.step_push_of_lt (by exact i₁.capacity_pos)] at hpush hback₂
    obtain ⟨i₃, hpop, hcap₃, hback₃⟩ := hback₂.call .pop (by simp)
    refine ⟨rs ++ [.pushed, .popped value], i₃, ?_, by rw [hcap₃, hcap₂, hcap], hback₃, ?_⟩
    · refine calls_append_of hcalls ?_
      simp only [Ring.calls, hpush, hpop, Option.bind_some]
      rfl
    · have hlen₂ := hback₂.length_eq
      have hlen₃ := hback₃.length_eq
      have hhead₂ := call_head_count hpush (by simp)
      have htail₃ := call_tail_count hpop (by simp)
      simp only [List.nil_append, List.length_singleton, Fifo.step_pop_cons, List.length_nil]
        at hlen₂ hlen₃
      omega

/-- Pushes that stay below the wrap fill the queue. -/
theorem fill {q : List α} (h : Backs inner q) (value : α) (k : ℕ)
    (hroom : q.length + k ≤ inner.capacity.toNat)
    (hlt : inner.head.count + q.length + k ≤ 2 ^ w) :
    ∃ rs inner', Ring.calls inner (List.replicate k (.push value)) = some (rs, inner') ∧
      inner'.capacity = inner.capacity ∧ Backs inner' (q ++ List.replicate k value) ∧
      inner'.head.count = inner.head.count := by
  induction k generalizing inner q with
  | zero => exact ⟨[], inner, rfl, rfl, by simpa using h, rfl⟩
  | succ k ih =>
    obtain ⟨i₁, hpush, hcap, hback⟩ := h.call (.push value) fun _ _ =>
      h.safePush_of_lt (by omega) (by omega)
    rw [Fifo.step_push_of_lt (by omega)] at hpush hback
    have hhead := call_head_count hpush (by simp)
    obtain ⟨rs, i₂, hcalls, hcap', hback', hhead'⟩ := ih hback
      (by simp only [hcap, List.length_append, List.length_singleton]; omega)
      (by simp only [hhead, List.length_append, List.length_singleton]; omega)
    refine ⟨.pushed :: rs, i₂, ?_, hcap'.trans hcap, ?_, hhead'.trans hhead⟩
    · rw [List.replicate_succ]
      simp only [Ring.calls, hpush, hcalls, Option.bind_some]
      rfl
    · rwa [List.append_assoc, List.singleton_append, ← List.replicate_succ] at hback'

/-- When the capacity does not divide the range of the counters, `wrapOps` ends with an
unsafe push. -/
theorem not_pushesSafe_wrapOps (h : Backs inner ([] : List α)) (hhead : inner.head.count = 0)
    (hdvd : ¬ inner.capacity.toNat ∣ 2 ^ w) (value : α) :
    ¬ PushesSafe inner (wrapOps w inner.capacity.toNat value) := by
  intro hsafe
  have hpos := inner.capacity_pos
  have hcap := inner.capacity_lt
  have hr : 0 < 2 ^ w % inner.capacity.toNat :=
    Nat.pos_of_ne_zero fun h0 => hdvd (Nat.dvd_of_mod_eq_zero h0)
  have hrlt := Nat.mod_lt (2 ^ w) hpos
  obtain ⟨rs₁, i₁, hcalls₁, hcap₁, hback₁, hhead₁⟩ :=
    h.alternate value (2 ^ w - 2 ^ w % inner.capacity.toNat)
  obtain ⟨rs₂, i₂, hcalls₂, hcap₂, hback₂, hhead₂⟩ :=
    hback₁.fill value (2 ^ w % inner.capacity.toNat)
      (by rw [hcap₁, List.length_nil]; omega) (by rw [List.length_nil]; omega)
  have hunsafe := hsafe _ value _ i₂ List.prefix_rfl (calls_append_of hcalls₁ hcalls₂)
  have htail := hback₂.length_eq
  rw [List.nil_append, List.length_replicate] at htail
  -- `tail` has just wrapped to zero
  have hzero : i₂.tail.last.toNat = 0 := by
    have hcount : i₂.tail.count = 2 ^ w := by omega
    rw [hback₂.tails.last_eq, BitVec.toNat_ofNat, hcount, Nat.mod_self]
  unfold Inner.SafePush at hunsafe
  rw [hback₂.toSettled.full_iff, hback₂.toSettled.occupancy, hzero, hcap₂, hcap₁] at hunsafe
  omega

end Backs

/-- **The wrap, exactly.** From a fresh channel a run of whole calls keeps the live
positions in distinct slots and answers as the bounded FIFO queue if and only if each of
its pushes is safe; every run does so if and only if the capacity divides `2 ^ w`. What whole
calls leave is what their interleaved steps can come to. -/
theorem faithful_iff [Nonempty α] {capacity : BitVec w} {inner : Inner w α}
    (hch : channel capacity = .ok inner) :
    (∀ ops, Faithful inner ops ↔ PushesSafe inner ops) ∧
      ((∀ ops, Faithful inner ops) ↔ capacity.toNat ∣ 2 ^ w) ∧
      ∀ ops replies inner', calls inner ops = some (replies, inner') →
        ∃ t, Transition.Reaches step (.start inner) t ∧ t.inner = inner' := by
  obtain ⟨-, hcap, hhead, -⟩ := channel_eq_ok hch
  have hback := Backs.of_channel hch
  refine ⟨faithful_iff_pushesSafe hback, ⟨?_, ?_⟩, ?_⟩
  · intro hall
    by_contra hdvd
    obtain ⟨value⟩ := ‹Nonempty α›
    refine hback.not_pushesSafe_wrapOps (by rw [hhead]; rfl) (hcap ▸ hdvd) value ?_
    exact (faithful_iff_pushesSafe hback _).mp (hall _)
  · intro hdvd ops
    exact (faithful_iff_pushesSafe hback ops).mpr
      (pushesSafe_of_dvd hback.toSettled (hcap ▸ hdvd) ops)
  · intro ops replies inner' hcalls
    obtain ⟨t, hreach, hinner, -⟩ :=
      calls_reaches (s := .start inner) (.of_channel hch) rfl rfl hcalls
    exact ⟨t, hreach, hinner⟩

/-- A queue of 16 items survives every wrap. -/
theorem faithful_power_of_two :
    ∃ inner : Inner 32 ℕ, channel 16#32 = .ok inner ∧ ∀ ops, Faithful inner ops :=
  ⟨_, rfl, (faithful_iff (by rfl : channel 16#32 = _)).2.1.mpr (by decide)⟩

/-- On a 32-bit target a queue of three items loses one at the wrap of its counters. -/
theorem capacity_three_not_faithful :
    ∃ inner : Inner 32 ℕ, channel 3#32 = .ok inner ∧ ¬ Faithful inner (wrapOps 32 3 0) := by
  obtain ⟨inner, hch⟩ := (channel_isOk_iff (α := ℕ) 3#32).mpr (by decide)
  obtain ⟨-, hcap, hhead, -⟩ := channel_eq_ok hch
  have hback := Backs.of_channel hch
  refine ⟨inner, hch, ?_⟩
  have hunsafe := hback.not_pushesSafe_wrapOps (by rw [hhead]; rfl) (by rw [hcap]; decide) 0
  rw [hcap] at hunsafe
  exact fun h => hunsafe ((faithful_iff_pushesSafe hback _).mp h)

end Ring
