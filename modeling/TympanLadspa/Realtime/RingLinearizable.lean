import TympanLadspa.Foundations.Fifo
import TympanLadspa.Foundations.Linearization
import TympanLadspa.Realtime.RingInvariant

/-!
# The ring is a linearizable bounded queue

With loads that return the current value, a call takes effect at the store of `tail`
when it pushes, at the load of `head` when it finds the queue full, at the store of
`head` when it pops and at the load of `tail` when it finds the queue empty.
-/

namespace Ring

open Linearization (Event Mark Phase Atomic Steps Linearizable)
open Fifo (Op Reply)

variable {w : ℕ} {α : Type*}

/-- The two clients of the queue. -/
inductive Side
  | producer
  | consumer
deriving Repr, DecidableEq

/-- A load of the other side's index returns its current value. -/
def Current (s : State w α) : Act α → Prop
  | .push (.loadHead place) => place = s.inner.head.count
  | .pop (.loadTail place) => place = s.inner.tail.count
  | _ => True

instance (s : State w α) (a : Act α) : Decidable (Current s a) :=
  match a with
  | .push (.loadHead place) => inferInstanceAs (Decidable (place = s.inner.head.count))
  | .pop (.loadTail place) => inferInstanceAs (Decidable (place = s.inner.tail.count))
  | .push (.loadTail _) => inferInstanceAs (Decidable True)
  | .push .returnErr => inferInstanceAs (Decidable True)
  | .push .write => inferInstanceAs (Decidable True)
  | .push .storeTail => inferInstanceAs (Decidable True)
  | .pop .loadHead => inferInstanceAs (Decidable True)
  | .pop .returnNone => inferInstanceAs (Decidable True)
  | .pop .read => inferInstanceAs (Decidable True)
  | .pop .storeHead => inferInstanceAs (Decidable True)

/-- The system whose loads are all current. -/
def stepCurrent : State w α → Act α → Option (State w α) :=
  Transition.restrict Current step

/-- The boundaries of calls a step makes visible: the first step of a call invokes it,
its last one responds. -/
def events (s : State w α) : Act α → List (Event Side (Op α) (Reply α))
  | .push (.loadTail value) => [.invoke .producer (.push value)]
  | .push .returnErr =>
    match s.producer with
    | .full value => [.respond .producer (.full value)]
    | _ => []
  | .push .storeTail => [.respond .producer .pushed]
  | .pop .loadHead => [.invoke .consumer .pop]
  | .pop .returnNone => [.respond .consumer .empty]
  | .pop .storeHead =>
    match s.consumer with
    | .taken value _ => [.respond .consumer (.popped value)]
    | _ => []
  | _ => []

/-- The load of `head` that finds the queue full. -/
def seesFull (s : State w α) (place : ℕ) : Bool :=
  match s.producer, s.inner.head.read place with
  | .loadedTail _ tail, some head => decide (s.inner.capacity ≤ tail - head)
  | _, _ => false

/-- The load of `tail` that finds the queue empty. -/
def seesEmpty (s : State w α) (place : ℕ) : Bool :=
  match s.consumer, s.inner.tail.read place with
  | .loadedHead head, some tail => decide (head = tail)
  | _, _ => false

/-- The events of a step together with the commit of the call that takes effect in it. -/
def marks (s : State w α) : Act α → List (Mark Side (Op α) (Reply α))
  | .push (.loadHead place) => if seesFull s place then [.commit .producer] else []
  | .push .storeTail => .commit .producer :: (events s (.push .storeTail)).map .boundary
  | .pop (.loadTail place) => if seesEmpty s place then [.commit .consumer] else []
  | .pop .storeHead => .commit .consumer :: (events s (.pop .storeHead)).map .boundary
  | a => (events s a).map .boundary

private theorem filterMap_boundary (es : List (Event Side (Op α) (Reply α))) :
    (es.map Mark.boundary).filterMap Mark.event = es := by
  rw [List.filterMap_map]
  exact List.filterMap_some

theorem marks_filterMap_event (s : State w α) (a : Act α) :
    (marks s a).filterMap Mark.event = events s a := by
  unfold marks
  split
  · split <;> rfl
  · exact filterMap_boundary _
  · split <;> rfl
  · exact filterMap_boundary _
  · exact filterMap_boundary _

/-- The items accepted and not yet popped. -/
def State.queue (s : State w α) : List α := s.accepted.drop s.popped.length

theorem Counters.queue_length {s : State w α} (h : Counters s) :
    s.queue.length = s.inner.tail.count - s.inner.head.count := by
  rw [State.queue, List.length_drop, h.accepted_length, h.popped_length]

/-- The queue is what the slots between `head` and `tail` hold. -/
theorem Slots.live_eq_queue {s : State w α} (h : Slots s) (hc : Counters s) :
    s.live = s.queue.map some := by
  have heq := congrArg (List.drop (s.popped.map some).length) (h.live_eq hc)
  rw [List.drop_left, List.length_map] at heq
  rw [heq, State.queue, List.map_drop]

theorem Counters.popped_le {s : State w α} (h : Counters s) :
    s.popped.length ≤ s.accepted.length := by
  rw [h.popped_length, h.accepted_length]
  exact h.head_le_tail

/-- The consumer holds the oldest item in its hands. -/
theorem Slots.queue_eq_cons {s : State w α} (h : Slots s) (hc : Counters s) {value : α}
    {head : BitVec w} (hpc : s.consumer = .taken value head) :
    s.queue = value :: s.accepted.drop (s.popped.length + 1) := by
  obtain ⟨xs, -, heq⟩ := h.holds
  rw [taken_eq s hpc] at heq
  have hok := hc.consumer_ok
  rw [hpc] at hok
  have hlt : s.popped.length < s.accepted.length := by
    rw [hc.popped_length, hc.accepted_length]
    exact hok.2.trans_le hc.seenTail_le
  have hget : s.accepted[s.popped.length] = value := by
    have hleft : (s.accepted ++ s.staged)[s.popped.length]? = some value := by
      rw [← heq, List.append_assoc, List.getElem?_append_right le_rfl, Nat.sub_self]
      rfl
    rw [List.getElem?_append_left hlt, List.getElem?_eq_getElem hlt] at hleft
    exact Option.some.inj hleft
  rw [State.queue, List.drop_eq_getElem_cons hlt, hget]

def PushPc.phase : PushPc w α → Phase (Op α) (Reply α)
  | .idle => .idle
  | .full value => .done (.full value)
  | .loadedTail value _ | .vacant value _ | .written value _ => .pending (.push value)

def PopPc.phase : PopPc w α → Phase (Op α) (Reply α)
  | .idle => .idle
  | .empty => .done .empty
  | .loadedHead _ | .ready _ | .taken _ _ | .uninit => .pending .pop

/-- The atomic queue holds the queue of the state, and its clients stand where the
program counters do. -/
structure Tracks (s : State w α) (c : Atomic Side (Op α) (Reply α) (List α)) : Prop where
  counters : Counters s
  slots : Slots s
  state : c.state = s.queue
  producer : c.phase .producer = s.producer.phase
  consumer : c.phase .consumer = s.consumer.phase

theorem Tracks.start {capacity : BitVec w} {inner : Inner w α}
    (h : channel capacity = .ok inner) : Tracks (State.start inner) (.start []) where
  counters := .of_channel h
  slots := .of_channel h
  state := rfl
  producer := rfl
  consumer := rfl

namespace Tracks

open Linearization (Step)

variable {s t : State w α} {c : Atomic Side (Op α) (Reply α) (List α)}

theorem pushStep {a : PushAct α} (h : Tracks s c) (hcur : Current s (.push a))
    (hc : Counters t) (hs : Slots t) (hstep : PushStep s a t) :
    ∃ d, Steps (Fifo.step s.inner.capacity.toNat) c (marks s (.push a)) d ∧ Tracks t d := by
  have hlen := h.counters.queue_length
  have hocc := h.counters.occupancy_le
  cases hstep with
  | @loadTail value hpc =>
    have hph : c.phase .producer = .idle := by rw [h.producer, hpc, PushPc.phase]
    exact ⟨_, .single (.invoke hph), hc, hs, h.state, by simp [PushPc.phase],
      by simpa using h.consumer⟩
  | @full value tail head place hpc hseen hread hfull =>
    have hph : c.phase .producer = .pending (.push value) := by
      rw [h.producer, hpc, PushPc.phase]
    have hmarks : marks s (.push (.loadHead place)) = [.commit .producer] := by
      simp [marks, seesFull, hpc, hread, hfull]
    -- the load is current, so the verdict is about the queue of this very instant
    obtain ⟨-, rfl⟩ := h.counters.heads.read_eq_some hread
    have hok := h.counters.producer_ok
    rw [hpc] at hok
    obtain rfl : tail = BitVec.ofNat w s.inner.tail.count := hok
    obtain rfl : place = s.inner.head.count := hcur
    rw [h.counters.full_iff hseen le_rfl] at hfull
    have hspec : Fifo.step s.inner.capacity.toNat c.state (.push value) =
        (.full value, c.state) := Fifo.step_push_of_le (by rw [h.state]; omega) value
    rw [hmarks]
    refine ⟨_, .single (.commit hph), hc, hs, ?_, ?_, ?_⟩
    · rw [hspec]
      exact h.state
    · simp [hspec, PushPc.phase]
    · simpa using h.consumer
  | @vacant value tail head place hpc hseen hread hroom =>
    have hmarks : marks s (.push (.loadHead place)) = [] := by
      simp [marks, seesFull, hpc, hread, hroom]
    rw [hmarks]
    exact ⟨c, .nil, hc, hs, h.state, by rw [h.producer, hpc]; rfl, h.consumer⟩
  | @returnErr value hpc =>
    have hph : c.phase .producer = .done (.full value) := by
      rw [h.producer, hpc, PushPc.phase]
    have hmarks : marks s (.push .returnErr) =
        [.boundary (.respond .producer (.full value))] := by
      simp [marks, events, hpc]
    rw [hmarks]
    exact ⟨_, .single (.respond hph), hc, hs, h.state, by simp [PushPc.phase],
      by simpa using h.consumer⟩
  | @write value tail hpc =>
    exact ⟨c, .nil, hc, hs, h.state, by rw [h.producer, hpc]; rfl, h.consumer⟩
  | @storeTail value tail hpc =>
    have hph : c.phase .producer = .pending (.push value) := by
      rw [h.producer, hpc, PushPc.phase]
    have hok := h.counters.producer_ok
    rw [hpc] at hok
    have hlt := hok.2
    have hseen := h.counters.seenHead_le
    have hht := h.counters.head_le_tail
    have hspec : Fifo.step s.inner.capacity.toNat c.state (.push value) =
        (.pushed, c.state ++ [value]) := Fifo.step_push_of_lt (by rw [h.state]; omega) value
    refine ⟨_, .cons (.commit hph) (.single (.respond ?_)), hc, hs, ?_, ?_, ?_⟩
    · simp [hspec]
    · rw [hspec, h.state]
      simp only [State.queue]
      rw [List.drop_append_of_le_length h.counters.popped_le]
    · simp [PushPc.phase]
    · simpa using h.consumer

theorem popStep {a : PopAct} (h : Tracks s c) (hcur : Current s (.pop a))
    (hc : Counters t) (hs : Slots t) (hstep : PopStep s a t) :
    ∃ d, Steps (Fifo.step s.inner.capacity.toNat) c (marks s (.pop a)) d ∧ Tracks t d := by
  have hlen := h.counters.queue_length
  cases hstep with
  | loadHead hpc =>
    have hph : c.phase .consumer = .idle := by rw [h.consumer, hpc, PopPc.phase]
    exact ⟨_, .single (.invoke hph), hc, hs, h.state, by simpa using h.producer,
      by simp [PopPc.phase]⟩
  | @empty head place hpc hseen hread =>
    have hph : c.phase .consumer = .pending .pop := by rw [h.consumer, hpc, PopPc.phase]
    have hmarks : marks s (.pop (.loadTail place)) = [.commit .consumer] := by
      simp [marks, seesEmpty, hpc, hread]
    -- the load is current, so the verdict is about the queue of this very instant
    have hok := h.counters.consumer_ok
    rw [hpc] at hok
    obtain rfl : head = BitVec.ofNat w s.inner.head.count := hok
    obtain ⟨-, heq⟩ := h.counters.tails.read_eq_some hread
    obtain rfl : place = s.inner.tail.count := hcur
    rw [h.counters.empty_iff hseen le_rfl] at heq
    have hnil : c.state = [] := by
      rw [h.state]
      exact List.eq_nil_of_length_eq_zero (by omega)
    rw [hmarks]
    refine ⟨_, .single (.commit hph), hc, hs, ?_, ?_, ?_⟩
    · rw [hnil]
      exact hnil.symm.trans h.state
    · simpa using h.producer
    · simp [hnil, PopPc.phase]
  | @ready head tail place hpc hseen hread hne =>
    have hmarks : marks s (.pop (.loadTail place)) = [] := by
      simp [marks, seesEmpty, hpc, hread, hne]
    rw [hmarks]
    exact ⟨c, .nil, hc, hs, h.state, h.producer, by rw [h.consumer, hpc]; rfl⟩
  | returnNone hpc =>
    have hph : c.phase .consumer = .done .empty := by rw [h.consumer, hpc, PopPc.phase]
    exact ⟨_, .single (.respond hph), hc, hs, h.state, by simpa using h.producer,
      by simp [PopPc.phase]⟩
  | read hpc hcell =>
    exact ⟨c, .nil, hc, hs, h.state, h.producer, by rw [h.consumer, hpc]; rfl⟩
  | uninit hpc hcell => exact absurd rfl hs.initialised
  | @storeHead value head hpc =>
    have hph : c.phase .consumer = .pending .pop := by rw [h.consumer, hpc, PopPc.phase]
    have hmarks : marks s (.pop .storeHead) =
        [.commit .consumer, .boundary (.respond .consumer (.popped value))] := by
      simp [marks, events, hpc]
    have hqueue := h.slots.queue_eq_cons h.counters hpc
    have hspec : Fifo.step s.inner.capacity.toNat c.state .pop =
        (.popped value, s.accepted.drop (s.popped.length + 1)) := by
      rw [h.state, hqueue, Fifo.step_pop_cons]
    rw [hmarks]
    refine ⟨_, .cons (.commit hph) (.single (.respond ?_)), hc, hs, ?_, ?_, ?_⟩
    · simp [hspec]
    · simp [hspec, State.queue]
    · simpa using h.producer
    · simp [PopPc.phase]

end Tracks

-- ════════════════════════════════════════════════════════════════════════
-- The verdicts
-- ════════════════════════════════════════════════════════════════════════

theorem stepCurrent_cases {s t : State w α} {a : Act α} (h : stepCurrent s a = some t) :
    Current s a ∧
      ((∃ b, a = .push b ∧ PushStep s b t) ∨ (∃ b, a = .pop b ∧ PopStep s b t)) :=
  (Transition.restrict_eq_some.mp h).imp_right step_cases

theorem stepCurrent_push {s t : State w α} {a : PushAct α}
    (h : stepCurrent s (.push a) = some t) : PushStep s a t :=
  pushStep_eq_some_iff.mp (Transition.restrict_eq_some.mp h).2

theorem stepCurrent_pop {s t : State w α} {a : PopAct}
    (h : stepCurrent s (.pop a) = some t) : PopStep s a t :=
  popStep_eq_some_iff.mp (Transition.restrict_eq_some.mp h).2

/-- The steps of one side leave the shared storage alone. -/
def PushLeaves (s : State w α) (a : Act α) (t : State w α) : Prop :=
  ∀ c, a = .push c → t.inner = s.inner

def PopLeaves (s : State w α) (a : Act α) (t : State w α) : Prop :=
  ∀ c, a = .pop c → t.inner = s.inner

/-- A call of the producer that has loaded `tail` and ends without success has seen a full
queue, and has touched nothing. -/
theorem full_passage {s t : State w α} {as : List (Act α)} {value : α} {tail : BitVec w}
    (hc : Counters s) (hpc : s.producer = .loadedTail value tail)
    (hone : ∀ v, Act.push (.loadTail v) ∉ as)
    (hrun : Transition.run stepCurrent s as = some t)
    (ht : ∃ v, t.producer = .full v) :
    Transition.Through stepCurrent (fun u => u.queue.length = u.inner.capacity.toNat) s as ∧
      Transition.EachStep stepCurrent PushLeaves s as ∧
      t.producer = .full value ∧ t.accepted = s.accepted ∧ t.rejected = s.rejected := by
  obtain ⟨v, hv⟩ := ht
  refine Transition.run_passage
    (A := fun u => Counters u ∧ (∃ tail, u.producer = .loadedTail value tail) ∧
      u.accepted = s.accepted ∧ u.rejected = s.rejected)
    (B := fun u => u.producer = .full value ∧
      u.accepted = s.accepted ∧ u.rejected = s.rejected)
    (D := fun u => u.producer = .idle ∨ (∃ v t, u.producer = .vacant v t) ∨
      ∃ v t, u.producer = .written v t)
    ?_ ?_ ?_ hrun ⟨hc, ⟨tail, hpc⟩, rfl, rfl⟩ ?_ ?_
  · rintro u a u' ha ⟨hcu, ⟨tail', hpcu⟩, hacc, hrej⟩ hstep
    have hcu' := hcu.step (Transition.restrict_eq_some.mp hstep).2
    obtain ⟨hcur, ⟨b, rfl, hpush⟩ | ⟨b, rfl, hpop⟩⟩ := stepCurrent_cases hstep
    · cases hpush with
      | @full value' tail head place hpc' hseen hread hfull =>
        obtain ⟨rfl, rfl⟩ : value' = value ∧ tail = tail' := by simpa [hpc'] using hpcu
        refine .inr (.inl ⟨?_, ⟨rfl, hacc, hrej⟩, fun _ _ => rfl⟩)
        -- the load is current, so the test is about the queue of this very instant
        obtain ⟨-, rfl⟩ := hcu.heads.read_eq_some hread
        have hok := hcu.producer_ok
        rw [hpc'] at hok
        obtain rfl : tail = BitVec.ofNat w u.inner.tail.count := hok
        obtain rfl : place = u.inner.head.count := hcur
        rw [hcu.full_iff hseen le_rfl] at hfull
        rw [hcu.queue_length]
        exact le_antisymm hcu.occupancy_le hfull
      | @vacant value' tail head place hpc' hseen hread hroom =>
        exact .inr (.inr (.inr (.inl ⟨value', tail, rfl⟩)))
      | loadTail hpc' => simp [hpcu] at hpc'
      | returnErr hpc' => simp [hpcu] at hpc'
      | write hpc' => simp [hpcu] at hpc'
      | storeTail hpc' => simp [hpcu] at hpc'
    · obtain ⟨hpceq, hacceq, hrejeq⟩ := hpop.frame
      exact .inl ⟨⟨hcu', ⟨tail', hpceq.trans hpcu⟩, hacceq.trans hacc, hrejeq.trans hrej⟩,
        fun _ h => nomatch h⟩
  · rintro u a u' ha ⟨hpcu, hacc, hrej⟩ hstep
    obtain ⟨-, ⟨b, rfl, hpush⟩ | ⟨b, rfl, hpop⟩⟩ := stepCurrent_cases hstep
    · cases hpush with
      | returnErr hpc' => exact .inr (.inl rfl)
      | _ hpc' => simp [hpcu] at hpc'
    · obtain ⟨hpceq, hacceq, hrejeq⟩ := hpop.frame
      exact .inl ⟨⟨hpceq.trans hpcu, hacceq.trans hacc, hrejeq.trans hrej⟩,
        fun _ h => nomatch h⟩
  · rintro u a u' ha hD hstep
    obtain ⟨-, ⟨b, rfl, hpush⟩ | ⟨b, rfl, hpop⟩⟩ := stepCurrent_cases hstep
    · cases hpush with
      | loadTail hpc' => exact absurd ha (hone _)
      | full hpc' => simp [hpc'] at hD
      | vacant hpc' => simp [hpc'] at hD
      | returnErr hpc' => exact .inl rfl
      | @write value tail hpc' => exact .inr (.inr ⟨value, tail, rfl⟩)
      | storeTail hpc' => exact .inl rfl
    · rw [hpop.frame.1]
      exact hD
  · rintro ⟨-, ⟨tail', hpct⟩, -⟩
    simp [hv] at hpct
  · simp [hv]

/-- A call of the consumer that has loaded `head` and ends without a value has seen an empty
queue, and has touched nothing. -/
theorem empty_passage {s t : State w α} {as : List (Act α)} {head : BitVec w}
    (hc : Counters s) (hpc : s.consumer = .loadedHead head)
    (hone : Act.pop .loadHead ∉ as)
    (hrun : Transition.run stepCurrent s as = some t) (ht : t.consumer = .empty) :
    Transition.Through stepCurrent (fun u => u.queue = []) s as ∧
      Transition.EachStep stepCurrent PopLeaves s as ∧ t.popped = s.popped := by
  have hpassage := Transition.run_passage
    (A := fun u => Counters u ∧ (∃ head, u.consumer = .loadedHead head) ∧
      u.popped = s.popped)
    (B := fun u => u.consumer = .empty ∧ u.popped = s.popped)
    (D := fun u => u.consumer = .idle ∨ (∃ h, u.consumer = .ready h) ∨
      (∃ v h, u.consumer = .taken v h) ∨ u.consumer = .uninit)
    (P := fun u => u.queue = []) (R := PopLeaves)
    ?_ ?_ ?_ hrun ⟨hc, ⟨head, hpc⟩, rfl⟩ ?_ ?_
  · exact ⟨hpassage.1, hpassage.2.1, hpassage.2.2.2⟩
  · rintro u a u' ha ⟨hcu, ⟨head', hpcu⟩, hpopped⟩ hstep
    have hcu' := hcu.step (Transition.restrict_eq_some.mp hstep).2
    obtain ⟨hcur, ⟨b, rfl, hpush⟩ | ⟨b, rfl, hpop⟩⟩ := stepCurrent_cases hstep
    · obtain ⟨hpceq, hpopeq⟩ := hpush.frame
      exact .inl ⟨⟨hcu', ⟨head', hpceq.trans hpcu⟩, hpopeq.trans hpopped⟩,
        fun _ h => nomatch h⟩
    · cases hpop with
      | @empty head place hpc' hseen hread =>
        refine .inr (.inl ⟨?_, ⟨rfl, hpopped⟩, fun _ _ => rfl⟩)
        -- the load is current, so the test is about the queue of this very instant
        have hok := hcu.consumer_ok
        rw [hpc'] at hok
        obtain rfl : head = BitVec.ofNat w u.inner.head.count := hok
        obtain ⟨-, heq⟩ := hcu.tails.read_eq_some hread
        obtain rfl : place = u.inner.tail.count := hcur
        rw [hcu.empty_iff hseen le_rfl] at heq
        have hlen := hcu.queue_length
        exact List.eq_nil_of_length_eq_zero (by omega)
      | ready hpc' => exact .inr (.inr (.inr (.inl ⟨_, rfl⟩)))
      | loadHead hpc' => simp [hpcu] at hpc'
      | returnNone hpc' => simp [hpcu] at hpc'
      | read hpc' => simp [hpcu] at hpc'
      | uninit hpc' => simp [hpcu] at hpc'
      | storeHead hpc' => simp [hpcu] at hpc'
  · rintro u a u' ha ⟨hpcu, hpopped⟩ hstep
    obtain ⟨-, ⟨b, rfl, hpush⟩ | ⟨b, rfl, hpop⟩⟩ := stepCurrent_cases hstep
    · obtain ⟨hpceq, hpopeq⟩ := hpush.frame
      exact .inl ⟨⟨hpceq.trans hpcu, hpopeq.trans hpopped⟩, fun _ h => nomatch h⟩
    · cases hpop with
      | returnNone hpc' => exact .inr (.inl rfl)
      | _ hpc' => simp [hpcu] at hpc'
  · rintro u a u' ha hD hstep
    obtain ⟨-, ⟨b, rfl, hpush⟩ | ⟨b, rfl, hpop⟩⟩ := stepCurrent_cases hstep
    · rw [hpush.frame.1]
      exact hD
    · cases hpop with
      | loadHead hpc' => exact absurd ha hone
      | empty hpc' => simp [hpc'] at hD
      | ready hpc' => simp [hpc'] at hD
      | returnNone hpc' => exact .inl rfl
      | read hpc' => exact .inr (.inr (.inl ⟨_, _, rfl⟩))
      | uninit hpc' => exact .inr (.inr (.inr rfl))
      | storeHead hpc' => exact .inl rfl
  · rintro ⟨-, ⟨head', hpct⟩, -⟩
    simp [ht] at hpct
  · simp [ht]

/-- **Full verdicts.** When the run through `as` ends with a call of the producer that
returns its value, the value is the one offered, some state between the first step of the
call and its return had `capacity` items, and the call left the queue alone. -/
def FullVerdicts (capacity : BitVec w) (inner : Inner w α) (as : List (Act α))
    (s : State w α) : Prop :=
  ∀ as₁ value as₂ u, as = as₁ ++ .push (.loadTail value) :: as₂ ++ [.push .returnErr] →
    (∀ v, Act.push (.loadTail v) ∉ as₂) →
    Transition.run stepCurrent (.start inner) (as₁ ++ [.push (.loadTail value)]) = some u →
    Transition.Through stepCurrent (fun t => t.live.length = capacity.toNat) u as₂ ∧
      Transition.EachStep stepCurrent PushLeaves u (as₂ ++ [.push .returnErr]) ∧
      s.accepted = u.accepted ∧ s.rejected = u.rejected ++ [value]

/-- **Empty verdicts.** When the run through `as` ends with a call of the consumer that
returns nothing, some state between the first step of the call and its return had no
items, and the call left the queue alone. -/
def EmptyVerdicts (inner : Inner w α) (as : List (Act α)) (s : State w α) : Prop :=
  ∀ as₁ as₂ u, as = as₁ ++ .pop .loadHead :: as₂ ++ [.pop .returnNone] →
    Act.pop .loadHead ∉ as₂ →
    Transition.run stepCurrent (.start inner) (as₁ ++ [.pop .loadHead]) = some u →
    Transition.Through stepCurrent (fun t => t.live = []) u as₂ ∧
      Transition.EachStep stepCurrent PopLeaves u (as₂ ++ [.pop .returnNone]) ∧
      s.popped = u.popped

/-- A state from which a run without collisions continues has the slots of its queue. -/
private theorem live_eq_of_reaches {inner : Inner w α} {capacity : BitVec w}
    (hch : channel capacity = .ok inner) {s t : State w α}
    (hs : Transition.Reaches step (.start inner) s) (ht : Transition.Reaches step s t)
    (hno : NoCollision t) : s.live = s.queue.map some := by
  have hno' : NoCollision s := .of_reaches ht hno
  exact (Slots.reaches hs (.of_channel hch) (.of_channel hch) hno').live_eq_queue
    ((Counters.of_channel hch).reaches hs)

/-- The three runs a call at the end of a run consists of: up to its first step, from there
to its last step, and the last step. -/
private theorem run_call {s t u : State w α} {as as₁ as₂ : List (Act α)} {a b : Act α}
    (has : as = as₁ ++ a :: as₂ ++ [b]) (hrun : Transition.run stepCurrent s as = some t)
    (hu : Transition.run stepCurrent s (as₁ ++ [a]) = some u) :
    ∃ v, Transition.run stepCurrent u as₂ = some v ∧ stepCurrent v b = some t := by
  rw [has, ← List.singleton_append (l := as₂), ← List.append_assoc,
    Transition.run_concat_eq_some] at hrun
  obtain ⟨v, hv, hb⟩ := hrun
  obtain ⟨u', hu', hv⟩ := Transition.run_append_eq_some.mp hv
  obtain rfl := Option.some.inj (hu.symm.trans hu')
  exact ⟨v, hv, hb⟩

section Verdicts

variable {capacity : BitVec w} {inner : Inner w α} {s : State w α} {as : List (Act α)}

theorem fullVerdicts (hch : channel capacity = .ok inner)
    (hrun : Transition.run stepCurrent (.start inner) as = some s) (hno : NoCollision s) :
    FullVerdicts capacity inner as s := by
  intro as₁ value as₂ u has hone hu
  obtain ⟨v, hv, hreturn⟩ := run_call has hrun hu
  have hreachu : Transition.Reaches step (.start inner) u := .of_restrict ⟨_, hu⟩
  have hcu := (Counters.of_channel hch).reaches hreachu
  obtain ⟨u₀, -, hload⟩ := Transition.run_concat_eq_some.mp hu
  obtain ⟨tail, hpcu⟩ : ∃ tail, u.producer = .loadedTail value tail := by
    cases stepCurrent_push hload with
    | loadTail => exact ⟨_, rfl⟩
  cases stepCurrent_push hreturn with
  | @returnErr value' hpcv =>
    obtain ⟨hthrough, heach, hpcv', hacc, hrej⟩ :=
      full_passage hcu hpcu hone hv ⟨value', hpcv⟩
    obtain rfl : value' = value := by simpa [hpcv] using hpcv'
    refine ⟨hthrough.imp hv ?_, heach.concat hv hreturn fun _ _ => rfl, hacc,
      congrArg (· ++ [value']) hrej⟩
    intro t htu htv hfull
    have hreach : Transition.Reaches step (.start inner) t := hreachu.trans (.of_restrict htu)
    rw [live_eq_of_reaches hch hreach (.of_restrict (htv.trans (.single hreturn))) hno,
      List.length_map, hfull, capacity_of_reaches hreach]
    exact congrArg BitVec.toNat (channel_eq_ok hch).2.1

theorem emptyVerdicts (hch : channel capacity = .ok inner)
    (hrun : Transition.run stepCurrent (.start inner) as = some s) (hno : NoCollision s) :
    EmptyVerdicts inner as s := by
  intro as₁ as₂ u has hone hu
  obtain ⟨v, hv, hreturn⟩ := run_call has hrun hu
  have hreachu : Transition.Reaches step (.start inner) u := .of_restrict ⟨_, hu⟩
  have hcu := (Counters.of_channel hch).reaches hreachu
  obtain ⟨u₀, -, hload⟩ := Transition.run_concat_eq_some.mp hu
  obtain ⟨head, hpcu⟩ : ∃ head, u.consumer = .loadedHead head := by
    cases stepCurrent_pop hload with
    | loadHead => exact ⟨_, rfl⟩
  cases stepCurrent_pop hreturn with
  | returnNone hpcv =>
    obtain ⟨hthrough, heach, hpopped⟩ := empty_passage hcu hpcu hone hv hpcv
    refine ⟨hthrough.imp hv ?_, heach.concat hv hreturn fun _ _ => rfl, hpopped⟩
    intro t htu htv hnil
    rw [live_eq_of_reaches hch (hreachu.trans (.of_restrict htu))
      (.of_restrict (htv.trans (.single hreturn))) hno, hnil]
    rfl

/-- **The ring is a linearizable bounded queue.** Every run in which loads return the
current value, as long as the capacity divides `2 ^ w` or fewer than `2 ^ w` items have
been accepted. -/
theorem linearizable (hch : channel capacity = .ok inner)
    (hrun : Transition.run stepCurrent (.start inner) as = some s)
    (hno : capacity.toNat ∣ 2 ^ w ∨ s.accepted.length < 2 ^ w) :
    Linearizable (Fifo.step capacity.toNat) []
        (Transition.along stepCurrent events (.start inner) as) ∧
      FullVerdicts capacity inner as s ∧ EmptyVerdicts inner as s := by
  have hinner : inner.capacity = capacity := (channel_eq_ok hch).2.1
  have hcap : s.inner.capacity = capacity :=
    (capacity_of_reaches (.of_restrict ⟨as, hrun⟩)).trans hinner
  have hno' : NoCollision s := by rwa [NoCollision, hcap]
  refine ⟨?_, fullVerdicts hch hrun hno', emptyVerdicts hch hrun hno'⟩
  have hsim : ∀ u a v c, Transition.Reaches stepCurrent v s →
      Tracks u c ∧ u.inner.capacity = capacity → stepCurrent u a = some v →
      ∃ d, Steps (Fifo.step capacity.toNat) c (marks u a) d ∧
        Tracks v d ∧ v.inner.capacity = capacity := by
    rintro u a v c hreach ⟨h, rfl⟩ hstep
    have hstep' := (Transition.restrict_eq_some.mp hstep).2
    have hnou : NoCollision u :=
      .of_reaches (.trans (.single hstep') (.of_restrict hreach)) hno'
    have hcv := h.counters.step hstep'
    have hsv := h.slots.step h.counters hnou hstep'
    have hcapv := step_capacity hstep'
    obtain ⟨hcur, ⟨b, rfl, hpush⟩ | ⟨b, rfl, hpop⟩⟩ := stepCurrent_cases hstep
    · obtain ⟨d, hd, ht⟩ := h.pushStep hcur hcv hsv hpush
      exact ⟨d, hd, ht, hcapv⟩
    · obtain ⟨d, hd, ht⟩ := h.popStep hcur hcv hsv hpop
      exact ⟨d, hd, ht, hcapv⟩
  obtain ⟨d, hd, -⟩ := Steps.of_run hsim hrun ⟨.start hch, hinner⟩
  exact ⟨_, d, Linearization.along_filterMap_event marks_filterMap_event _ _, hd⟩

end Verdicts

/-- A queue of one item in which both verdicts occur, the full one after the consumer has
made room. -/
theorem linearizable_full_and_empty :
    ∃ (inner : Inner 2 ℕ) (as : List (Act ℕ)) (s : State 2 ℕ),
      channel 1#2 = .ok inner ∧ Transition.run stepCurrent (.start inner) as = some s ∧
      s.popped = [7] ∧ s.rejected = [8] ∧
      Linearizable (Fifo.step (1#2).toNat) []
        (Transition.along stepCurrent events (.start inner) as) ∧
      FullVerdicts 1#2 inner as s ∧ EmptyVerdicts inner as s := by
  refine ⟨_, [.pop .loadHead, .push (.loadTail 7), .pop (.loadTail 0), .push (.loadHead 0),
      .push .write, .pop .returnNone, .push .storeTail, .push (.loadTail 8),
      .pop .loadHead, .pop (.loadTail 1), .push (.loadHead 0), .pop .read,
      .pop .storeHead, .push .returnErr], ?s, rfl, ?run, ?_, ?_,
    linearizable (by rfl) ?run (.inl (by decide))⟩
  case run => rfl
  all_goals rfl

end Ring
