import TympanLadspa.Realtime.Ring
import Mathlib.Tactic.Linarith

/-!
# Invariants of the ring

`Counters` relates the two wrapping indices, the stale views and the program
counters to unbounded positions: the place in a modification order *is* the
position. It holds in every reachable state, whatever the capacity.

`Slots` says what the buffer holds. It needs the two moduli of a slot to agree on
the live window, which `NoCollision` guarantees.
-/

namespace Ring

open Window (slot Distinct Holds)

variable {w : ℕ} {α : Type*}

/-- What the producer's locals say, `tail` items having been stored so far. -/
def PushPc.Ok (tail seenHead capacity : ℕ) : PushPc w α → Prop
  | .idle => True
  | .loadedTail _ t => t = BitVec.ofNat w tail
  | .full _ => True
  | .vacant _ t => t = BitVec.ofNat w tail ∧ tail < seenHead + capacity
  | .written _ t => t = BitVec.ofNat w tail ∧ tail < seenHead + capacity

/-- What the consumer's locals say, `head` items having been taken so far. -/
def PopPc.Ok (head seenTail : ℕ) : PopPc w α → Prop
  | .idle => True
  | .loadedHead h => h = BitVec.ofNat w head
  | .empty => head = seenTail
  | .ready h => h = BitVec.ofNat w head ∧ head < seenTail
  | .taken _ h => h = BitVec.ofNat w head ∧ head < seenTail
  | .uninit => True

/-- The indices count stores, the views are behind the indices, and neither side
runs ahead of what it has seen of the other. -/
structure Counters (s : State w α) : Prop where
  heads : s.inner.head.Counts (BitVec.ofNat w)
  tails : s.inner.tail.Counts (BitVec.ofNat w)
  accepted_length : s.accepted.length = s.inner.tail.count
  popped_length : s.popped.length = s.inner.head.count
  seenHead_le : s.seenHead ≤ s.inner.head.count
  seenTail_le : s.seenTail ≤ s.inner.tail.count
  head_le_seen : s.inner.head.count ≤ s.seenTail
  tail_le_seen : s.inner.tail.count ≤ s.seenHead + s.inner.capacity.toNat
  producer_ok : s.producer.Ok s.inner.tail.count s.seenHead s.inner.capacity.toNat
  consumer_ok : s.consumer.Ok s.inner.head.count s.seenTail

namespace Counters

variable {s t : State w α}

theorem head_le_tail (h : Counters s) : s.inner.head.count ≤ s.inner.tail.count :=
  h.head_le_seen.trans h.seenTail_le

theorem occupancy_le (h : Counters s) :
    s.inner.tail.count - s.inner.head.count ≤ s.inner.capacity.toNat := by
  have := h.tail_le_seen
  have := h.seenHead_le
  omega

/-- The occupancy test is exact on every entry of `head` the producer may load. -/
theorem full_iff (h : Counters s) {place : ℕ} (hseen : s.seenHead ≤ place)
    (hplace : place ≤ s.inner.head.count) :
    s.inner.capacity ≤ BitVec.ofNat w s.inner.tail.count - BitVec.ofNat w place ↔
      s.inner.capacity.toNat ≤ s.inner.tail.count - place := by
  have hle := h.tail_le_seen
  have hcap := s.inner.capacity_lt
  rw [BitVec.le_def, Window.toNat_ofNat_sub (hplace.trans h.head_le_tail) (by omega)]

/-- The emptiness test is exact on every entry of `tail` the consumer may load. -/
theorem empty_iff (h : Counters s) {place : ℕ} (hseen : s.seenTail ≤ place)
    (hplace : place ≤ s.inner.tail.count) :
    BitVec.ofNat w s.inner.head.count = BitVec.ofNat w place ↔ s.inner.head.count = place := by
  have := h.occupancy_le
  have := s.inner.capacity_lt
  exact Window.ofNat_eq_iff (h.head_le_seen.trans hseen) (by omega)

theorem start {inner : Inner w α} (hhead : inner.head = .new 0) (htail : inner.tail = .new 0) :
    Counters (State.start inner) where
  heads := by
    rw [State.start, hhead]
    exact Location.counts_new (BitVec.ofNat w)
  tails := by
    rw [State.start, htail]
    exact Location.counts_new (BitVec.ofNat w)
  accepted_length := by simp [State.start, htail]
  popped_length := by simp [State.start, hhead]
  seenHead_le := Nat.zero_le _
  seenTail_le := Nat.zero_le _
  head_le_seen := by simp [State.start, hhead]
  tail_le_seen := by simp [State.start, htail]
  producer_ok := trivial
  consumer_ok := trivial

theorem pushStep {a : PushAct α} (h : Counters s) (hstep : PushStep s a t) : Counters t := by
  cases hstep with
  | loadTail hpc => exact { h with producer_ok := h.tails.last_eq }
  | full hpc hseen hread hfull =>
    obtain ⟨hplace, rfl⟩ := h.heads.read_eq_some hread
    have hle := h.tail_le_seen
    exact { h with
      seenHead_le := hplace
      tail_le_seen := by simpa using hle.trans (Nat.add_le_add_right hseen _)
      producer_ok := trivial }
  | @vacant value tail head place hpc hseen hread hroom =>
    obtain ⟨hplace, rfl⟩ := h.heads.read_eq_some hread
    have hok := h.producer_ok
    rw [hpc] at hok
    have htail : tail = BitVec.ofNat w s.inner.tail.count := hok
    rw [htail, h.full_iff hseen hplace] at hroom
    have hle := h.tail_le_seen
    have hpos := s.inner.capacity_pos
    exact { h with
      seenHead_le := hplace
      tail_le_seen := by simpa using hle.trans (Nat.add_le_add_right hseen _)
      producer_ok := ⟨htail, by dsimp only; omega⟩ }
  | returnErr hpc => exact { h with producer_ok := trivial }
  | write hpc =>
    have hok := h.producer_ok
    rw [hpc] at hok
    exact { h with producer_ok := hok }
  | @storeTail value tail hpc =>
    have hok := h.producer_ok
    rw [hpc] at hok
    obtain ⟨rfl, hlt⟩ := hok
    have hnext : BitVec.ofNat w s.inner.tail.count + 1 = BitVec.ofNat w (s.inner.tail.count + 1) :=
      (BitVec.ofNat_add _ _).symm
    exact { h with
      tails := by simpa only [Inner.storeTail_tail, hnext] using h.tails.store
      accepted_length := by simp [h.accepted_length]
      seenTail_le := by simpa using Nat.le_succ_of_le h.seenTail_le
      tail_le_seen := by simpa [Nat.succ_le_iff] using hlt
      producer_ok := trivial }

theorem popStep {a : PopAct} (h : Counters s) (hstep : PopStep s a t) : Counters t := by
  cases hstep with
  | loadHead hpc => exact { h with consumer_ok := h.heads.last_eq }
  | @empty head place hpc hseen hread =>
    obtain ⟨hplace, rfl⟩ := h.tails.read_eq_some hread
    have hok := h.consumer_ok
    rw [hpc] at hok
    have hhead : BitVec.ofNat w place = BitVec.ofNat w s.inner.head.count := hok
    exact { h with
      seenTail_le := hplace
      head_le_seen := h.head_le_seen.trans hseen
      consumer_ok := (h.empty_iff hseen hplace).mp hhead.symm }
  | @ready head tail place hpc hseen hread hne =>
    obtain ⟨hplace, rfl⟩ := h.tails.read_eq_some hread
    have hok := h.consumer_ok
    rw [hpc] at hok
    have hhead : head = BitVec.ofNat w s.inner.head.count := hok
    rw [hhead, ne_eq, h.empty_iff hseen hplace] at hne
    have hle := h.head_le_seen
    exact { h with
      seenTail_le := hplace
      head_le_seen := hle.trans hseen
      consumer_ok := ⟨hhead, by dsimp only; omega⟩ }
  | returnNone hpc => exact { h with consumer_ok := trivial }
  | read hpc hcell =>
    have hok := h.consumer_ok
    rw [hpc] at hok
    exact { h with consumer_ok := hok }
  | uninit hpc hcell => exact { h with consumer_ok := trivial }
  | @storeHead value head hpc =>
    have hok := h.consumer_ok
    rw [hpc] at hok
    obtain ⟨rfl, hlt⟩ := hok
    have hnext : BitVec.ofNat w s.inner.head.count + 1 = BitVec.ofNat w (s.inner.head.count + 1) :=
      (BitVec.ofNat_add _ _).symm
    exact { h with
      heads := by simpa only [Inner.storeHead_head, hnext] using h.heads.store
      popped_length := by simp [h.popped_length]
      seenHead_le := by simpa using Nat.le_succ_of_le h.seenHead_le
      head_le_seen := by simpa [Nat.succ_le_iff] using hlt
      consumer_ok := trivial }

theorem step {a : Act α} (h : Counters s) (hstep : Ring.step s a = some t) : Counters t := by
  rcases step_cases hstep with ⟨b, rfl, hpush⟩ | ⟨b, rfl, hpop⟩
  · exact h.pushStep hpush
  · exact h.popStep hpop

theorem reaches (h : Counters s) (hreach : Transition.Reaches Ring.step s t) : Counters t :=
  hreach.invariant (fun _ _ _ h hstep => h.step hstep) h

end Counters

/-- The value the consumer has read out of its slot without having stored `head`. -/
def State.taken (s : State w α) : List α :=
  match s.consumer with
  | .taken value _ => [value]
  | _ => []

/-- The value the producer has written into a slot without having stored `tail`. -/
def State.staged (s : State w α) : List α :=
  match s.producer with
  | .written value _ => [value]
  | _ => []

/-- The capacity divides the range of the counters, or they have not wrapped yet. -/
def NoCollision (s : State w α) : Prop :=
  s.inner.capacity.toNat ∣ 2 ^ w ∨ s.accepted.length < 2 ^ w

/-- The buffer holds the accepted items not yet popped, apart from the one in the
consumer's hands and together with the one about to be published. -/
structure Slots (s : State w α) : Prop where
  holds : ∃ xs, Holds (slot (2 ^ w) s.inner.capacity.toNat) s.inner.buffer
      (s.inner.head.count + s.taken.length) xs ∧
    s.popped ++ s.taken ++ xs = s.accepted ++ s.staged
  initialised : s.consumer ≠ .uninit

section Simp

variable (s : State w α)

theorem taken_eq_nil (h : ∀ value head, s.consumer ≠ .taken value head) : s.taken = [] := by
  unfold State.taken
  split
  · next value head hpc => exact absurd hpc (h value head)
  · rfl

theorem staged_eq_nil (h : ∀ value tail, s.producer ≠ .written value tail) : s.staged = [] := by
  unfold State.staged
  split
  · next value tail hpc => exact absurd hpc (h value tail)
  · rfl

theorem taken_eq {value : α} {head : BitVec w} (h : s.consumer = .taken value head) :
    s.taken = [value] := by
  rw [State.taken, h]

theorem staged_eq {value : α} {tail : BitVec w} (h : s.producer = .written value tail) :
    s.staged = [value] := by
  rw [State.staged, h]

end Simp

/-- The number of values that lie in slots. -/
def State.window (s : State w α) : ℕ :=
  s.inner.tail.count + s.staged.length - (s.inner.head.count + s.taken.length)

/-- The slots of `n` positions differ, from the first one not read out on. -/
def State.Spread (s : State w α) (n : ℕ) : Prop :=
  Distinct (slot (2 ^ w) s.inner.capacity.toNat) (s.inner.head.count + s.taken.length) n

/-- Positions below the end of the window have distinct slots. -/
theorem Counters.distinct {s : State w α} (h : Counters s) (hno : NoCollision s) {lo n : ℕ}
    (hn : lo + n ≤ s.inner.tail.count + 1)
    (hcap : n ≤ s.inner.capacity.toNat) :
    Distinct (slot (2 ^ w) s.inner.capacity.toNat) lo n := by
  have hlt := s.inner.capacity_lt
  rcases hno with hdvd | hacc
  · exact Window.distinct_of_dvd hlt.le hdvd hcap
  · rw [h.accepted_length] at hacc
    exact Window.distinct_of_le hlt.le hcap (by omega)

/-- The window with the staged value still fits the buffer. -/
theorem Counters.window_le {s : State w α} (h : Counters s) :
    s.inner.tail.count + s.staged.length ≤ s.inner.head.count + s.inner.capacity.toNat ∧
      s.staged.length ≤ 1 := by
  have hle := h.tail_le_seen
  have hseen := h.seenHead_le
  have hok := h.producer_ok
  cases hpc : s.producer with
  | written value tail =>
    rw [hpc] at hok
    have hlt := hok.2
    rw [staged_eq s hpc, List.length_singleton]
    omega
  | _ =>
    rw [staged_eq_nil s (by simp [hpc]), List.length_nil]
    omega

theorem Counters.taken_le {s : State w α} (h : Counters s) :
    s.inner.head.count + s.taken.length ≤ s.inner.tail.count := by
  have hok := h.consumer_ok
  cases hpc : s.consumer with
  | taken value head =>
    rw [hpc] at hok
    rw [taken_eq s hpc, List.length_singleton]
    exact hok.2.trans_le h.seenTail_le
  | _ =>
    rw [taken_eq_nil s (by simp [hpc]), List.length_nil, Nat.add_zero]
    exact h.head_le_tail

/-- Without collisions the values in slots lie apart. -/
theorem Counters.spread {s : State w α} (h : Counters s) (hno : NoCollision s) :
    s.Spread s.window := by
  obtain ⟨hfit, hone⟩ := h.window_le
  have htaken := h.taken_le
  refine h.distinct hno ?_ ?_ <;> rw [State.window] <;> omega

/-- Without collisions there is a slot for the value about to be written. -/
theorem Counters.spread_succ {s : State w α} (h : Counters s) (hno : NoCollision s) {value : α}
    {tail : BitVec w} (hpc : s.producer = .vacant value tail) : s.Spread (s.window + 1) := by
  have hok := h.producer_ok
  rw [hpc] at hok
  have hlt := hok.2
  have hseen := h.seenHead_le
  have htaken := h.taken_le
  have hnil : s.staged = [] := staged_eq_nil s (by simp [hpc])
  refine h.distinct hno ?_ ?_ <;> rw [State.window, hnil, List.length_nil] <;> omega

namespace Slots

variable {s t : State w α}

/-- A consumer about to read stands at the slot of the oldest item. -/
theorem oldest (h : Slots s) (hc : Counters s) {head : BitVec w}
    (hpc : s.consumer = .ready head) :
    ∃ x xs, Holds (slot (2 ^ w) s.inner.capacity.toNat) s.inner.buffer
        s.inner.head.count (x :: xs) ∧
      s.inner.idx head = slot (2 ^ w) s.inner.capacity.toNat s.inner.head.count ∧
      s.popped ++ x :: xs = s.accepted ++ s.staged := by
  obtain ⟨xs, hxs, heq⟩ := h.holds
  rw [taken_eq_nil s (by simp [hpc])] at hxs heq
  rw [List.append_nil] at heq
  have hok := hc.consumer_ok
  rw [hpc] at hok
  obtain ⟨rfl, hlt⟩ := hok
  have hseen := hc.seenTail_le
  have hlen := congrArg List.length heq
  simp only [List.length_append, hc.popped_length, hc.accepted_length] at hlen
  cases xs with
  | nil =>
    rw [List.length_nil] at hlen
    omega
  | cons x xs => exact ⟨x, xs, hxs, s.inner.idx_ofNat _, heq⟩

/-- A producer about to write stands at the slot behind the window. -/
theorem vacant (h : Slots s) (hc : Counters s) {value : α} {tail : BitVec w}
    (hpc : s.producer = .vacant value tail) :
    ∃ xs, s.popped ++ s.taken ++ xs = s.accepted ∧
      Holds (slot (2 ^ w) s.inner.capacity.toNat) s.inner.buffer
        (s.inner.head.count + s.taken.length) xs ∧
      xs.length = s.window ∧
      s.inner.idx tail = slot (2 ^ w) s.inner.capacity.toNat
        (s.inner.head.count + s.taken.length + xs.length) := by
  obtain ⟨xs, hxs, heq⟩ := h.holds
  have hok := hc.producer_ok
  rw [hpc] at hok
  obtain ⟨rfl, hlt⟩ := hok
  have hnil : s.staged = [] := staged_eq_nil s (by simp [hpc])
  rw [hnil, List.append_nil] at heq
  have hlen := congrArg List.length heq
  simp only [List.length_append, hc.popped_length, hc.accepted_length] at hlen
  refine ⟨xs, heq, hxs, ?_, ?_⟩
  · rw [State.window, hnil, List.length_nil]
    omega
  · rw [Inner.idx_ofNat, hlen]

theorem start {inner : Inner w α}
    (hbuf : inner.buffer = List.replicate inner.capacity.toNat none) :
    Slots (State.start inner) where
  holds := by
    refine ⟨[], ?_, rfl⟩
    simp only [State.start, hbuf]
    exact Window.holds_replicate _
  initialised := by intro h; cases h

/-- A step that touches neither the buffer nor `head`, and no value in flight. -/
private theorem frame (h : Slots s) (hbuf : t.inner.buffer = s.inner.buffer)
    (hcap : t.inner.capacity = s.inner.capacity) (hhead : t.inner.head = s.inner.head)
    (htaken : t.taken = s.taken) (hstaged : t.staged = s.staged)
    (hpopped : t.popped = s.popped) (hacc : t.accepted = s.accepted)
    (hinit : t.consumer ≠ .uninit) : Slots t where
  holds := by
    rw [hbuf, hcap, hhead, htaken, hstaged, hpopped, hacc]
    exact h.holds
  initialised := hinit

theorem pushStep {a : PushAct α} (h : Slots s) (hc : Counters s)
    (hd : ∀ value tail, s.producer = .vacant value tail → s.Spread (s.window + 1))
    (hstep : PushStep s a t) : Slots t := by
  cases hstep with
  | loadTail hpc =>
    exact h.frame rfl rfl rfl rfl (by simp [State.staged, hpc]) rfl rfl h.initialised
  | full hpc hseen hread hfull =>
    exact h.frame rfl rfl rfl rfl (by simp [State.staged, hpc]) rfl rfl h.initialised
  | vacant hpc hseen hread hroom =>
    exact h.frame rfl rfl rfl rfl (by simp [State.staged, hpc]) rfl rfl h.initialised
  | returnErr hpc =>
    exact h.frame rfl rfl rfl rfl (by simp [State.staged, hpc]) rfl rfl h.initialised
  | @write value tail hpc =>
    obtain ⟨xs, heq, hxs, hlen, hidx⟩ := h.vacant hc hpc
    have hd' := hd value tail hpc
    rw [← hlen] at hd'
    refine ⟨⟨xs ++ [value], ?_, ?_⟩, h.initialised⟩
    · have := hxs.push (x := value) hd' (hidx ▸ s.inner.idx_lt tail)
      rwa [← hidx] at this
    · rw [staged_eq _ rfl, ← List.append_assoc]
      exact congrArg (· ++ [value]) heq
  | @storeTail value tail hpc =>
    obtain ⟨xs, hxs, heq⟩ := h.holds
    rw [staged_eq s hpc] at heq
    refine ⟨⟨xs, hxs, ?_⟩, h.initialised⟩
    rw [staged_eq_nil _ (by simp), List.append_nil]
    exact heq

theorem popStep {a : PopAct} (h : Slots s) (hc : Counters s) (hd : s.Spread s.window)
    (hstep : PopStep s a t) : Slots t := by
  cases hstep with
  | loadHead hpc =>
    exact h.frame rfl rfl rfl (by simp [State.taken, hpc]) rfl rfl rfl (by simp)
  | empty hpc hseen hread =>
    exact h.frame rfl rfl rfl (by simp [State.taken, hpc]) rfl rfl rfl (by simp)
  | ready hpc hseen hread hne =>
    exact h.frame rfl rfl rfl (by simp [State.taken, hpc]) rfl rfl rfl (by simp)
  | returnNone hpc =>
    exact h.frame rfl rfl rfl (by simp [State.taken, hpc]) rfl rfl rfl (by simp)
  | @read value head hpc hcell =>
    obtain ⟨x, xs, hxs, hidx, heq⟩ := h.oldest hc hpc
    obtain rfl : value = x := by
      rw [hidx, hxs.head] at hcell
      exact (Option.some.inj (Option.some.inj hcell)).symm
    have hlen := congrArg List.length heq
    simp only [List.length_append, List.length_cons, hc.popped_length, hc.accepted_length] at hlen
    have hwindow : s.window = xs.length + 1 := by
      rw [State.window, taken_eq_nil s (by simp [hpc]), List.length_nil]
      omega
    rw [State.Spread, hwindow, taken_eq_nil s (by simp [hpc]), List.length_nil] at hd
    refine ⟨⟨xs, ?_, ?_⟩, by simp⟩
    · rw [taken_eq _ rfl, List.length_singleton, hidx]
      exact hxs.pop hd
    · rw [taken_eq _ rfl, List.append_assoc]
      exact heq
  | @uninit head hpc hcell =>
    obtain ⟨x, xs, hxs, hidx, heq⟩ := h.oldest hc hpc
    exact absurd (hidx ▸ hxs.head) (hcell x)
  | @storeHead value head hpc =>
    obtain ⟨xs, hxs, heq⟩ := h.holds
    rw [taken_eq s hpc] at hxs heq
    refine ⟨⟨xs, ?_, ?_⟩, by simp⟩
    · rw [taken_eq_nil _ (by simp)]
      simpa using hxs
    · rw [taken_eq_nil _ (by simp), List.append_nil]
      exact heq

end Slots

-- ════════════════════════════════════════════════════════════════════════
-- Reachable states
-- ════════════════════════════════════════════════════════════════════════

theorem step_capacity {s t : State w α} {a : Act α} (h : step s a = some t) :
    t.inner.capacity = s.inner.capacity := by
  rcases step_cases h with ⟨b, rfl, hpush⟩ | ⟨b, rfl, hpop⟩
  · cases hpush <;> rfl
  · cases hpop <;> rfl

theorem step_accepted {s t : State w α} {a : Act α} (h : step s a = some t) :
    s.accepted <+: t.accepted := by
  rcases step_cases h with ⟨b, rfl, hpush⟩ | ⟨b, rfl, hpop⟩
  · cases hpush with
    | storeTail hpc => exact List.prefix_append _ _
    | _ => exact List.prefix_rfl
  · cases hpop <;> exact List.prefix_rfl

/-- Once two positions of the window may collide, this stays so. -/
theorem NoCollision.of_step {s t : State w α} {a : Act α} (hstep : step s a = some t)
    (h : NoCollision t) : NoCollision s := by
  rcases h with hdvd | hacc
  · exact .inl (step_capacity hstep ▸ hdvd)
  · exact .inr ((step_accepted hstep).length_le.trans_lt hacc)

theorem NoCollision.of_reaches {s t : State w α} (h : Transition.Reaches Ring.step s t)
    (ht : NoCollision t) : NoCollision s :=
  h.guard (fun _ _ _ hstep => NoCollision.of_step hstep) ht

theorem Slots.step {s t : State w α} {a : Act α} (h : Slots s) (hc : Counters s)
    (hno : NoCollision s) (hstep : Ring.step s a = some t) : Slots t := by
  rcases step_cases hstep with ⟨b, rfl, hpush⟩ | ⟨b, rfl, hpop⟩
  · exact h.pushStep hc (fun _ _ => hc.spread_succ hno) hpush
  · exact h.popStep hc (hc.spread hno) hpop

/-- **Run lemma**: both invariants hold along every run that ends without collisions. -/
theorem Slots.reaches {s t : State w α} (hreach : Transition.Reaches Ring.step s t)
    (hc : Counters s) (hs : Slots s) (hno : NoCollision t) : Slots t := by
  refine (hreach.guarded_invariant (G := NoCollision) (I := fun u => Counters u ∧ Slots u)
    ?_ ?_ (fun _ => ⟨hc, hs⟩) hno).2
  · intro u a v hstep hv
    exact hv.of_step hstep
  · rintro u a v hu _ ⟨hcu, hsu⟩ hstep
    exact ⟨hcu.step hstep, hsu.step hcu hu hstep⟩

theorem Counters.of_channel {capacity : BitVec w} {inner : Inner w α}
    (h : channel capacity = .ok inner) : Counters (State.start inner) := by
  obtain ⟨-, -, hhead, htail⟩ := channel_eq_ok h
  exact .start hhead htail

theorem Slots.of_channel {capacity : BitVec w} {inner : Inner w α}
    (h : channel capacity = .ok inner) : Slots (State.start inner) := by
  obtain ⟨hbuf, hcap, -, -⟩ := channel_eq_ok h
  exact .start (hcap ▸ hbuf)

theorem capacity_of_reaches {s t : State w α} (hreach : Transition.Reaches step s t) :
    t.inner.capacity = s.inner.capacity := by
  refine hreach.invariant (I := fun u => u.inner.capacity = s.inner.capacity) ?_ rfl
  intro u a v hu hstep
  rw [step_capacity hstep, hu]

/-- The first counter whose slot has not been read out: `head`, or the one behind it
while the consumer stands between its read and its store of `head`. -/
def State.unread (s : State w α) : BitVec w :=
  s.inner.head.last + BitVec.ofNat w s.taken.length

/-- The items live between `head` and `tail`: what the consumer has in its hands and
the contents of the slots from there to `tail - 1`. -/
def State.live (s : State w α) : List (Option α) :=
  s.taken.map some ++ s.inner.cells s.unread (s.inner.tail.last - s.unread).toNat

theorem Inner.cells_of_holds {inner : Inner w α} {lo : ℕ} {xs : List α}
    (h : Holds (slot (2 ^ w) inner.capacity.toNat) inner.buffer lo xs) {n : ℕ}
    (hn : n ≤ xs.length) : inner.cells (BitVec.ofNat w lo) n = (xs.take n).map some := by
  apply List.ext_getElem
  · simp [Inner.cells, hn]
  · intro k hk hk'
    rw [Inner.cells, List.length_map, List.length_range] at hk
    simp only [Inner.cells, List.getElem_map, List.getElem_range, List.getElem_take]
    rw [← BitVec.ofNat_add, idx_ofNat, h.filled k (by omega)]
    rfl

theorem Slots.live_eq {s : State w α} (h : Slots s) (hc : Counters s) :
    s.popped.map some ++ s.live = s.accepted.map some := by
  obtain ⟨xs, hxs, heq⟩ := h.holds
  have hlen := congrArg List.length heq
  simp only [List.length_append, hc.popped_length, hc.accepted_length] at hlen
  obtain ⟨hfit, hone⟩ := hc.window_le
  have htaken := hc.taken_le
  have hcap := s.inner.capacity_lt
  have htail : (s.popped ++ s.taken).length ≤ s.accepted.length := by
    rwa [List.length_append, hc.popped_length, hc.accepted_length]
  -- the staged value, if any, lies behind `tail`
  have htake := congrArg (List.take s.accepted.length) heq
  rw [List.take_left, List.take_append, List.take_of_length_le htail, List.length_append,
    hc.popped_length, hc.accepted_length] at htake
  rw [State.live, State.unread, hc.heads.last_eq, hc.tails.last_eq, ← BitVec.ofNat_add,
    Window.toNat_ofNat_sub htaken (by omega), Inner.cells_of_holds hxs (by omega),
    ← List.map_append, ← List.map_append, ← List.append_assoc, htake]

/-- What a reachable state of the ring guarantees. -/
structure Delivered (capacity : BitVec w) (s : State w α) : Prop where
  /-- The items popped, then the live ones, are the accepted ones in order. -/
  fifo : s.popped.map some ++ s.live = s.accepted.map some
  bounded : s.live.length ≤ capacity.toNat
  initialised : s.consumer ≠ .uninit
  /-- A consumer about to read stands at an initialised slot. -/
  readable : ∀ head, s.consumer = .ready head →
    ∃ value, s.inner.buffer[s.inner.idx head]? = some (some value)
  /-- A producer about to write stands at an empty slot. -/
  writable : ∀ value tail, s.producer = .vacant value tail →
    s.inner.buffer[s.inner.idx tail]? = some none
  /-- The two sides never stand at one slot at the same time. -/
  exclusive : ∀ value tail head, s.producer = .vacant value tail →
    s.consumer = .ready head → s.inner.idx tail ≠ s.inner.idx head

theorem Slots.readable {s : State w α} (h : Slots s) (hc : Counters s) {head : BitVec w}
    (hpc : s.consumer = .ready head) :
    ∃ value, s.inner.buffer[s.inner.idx head]? = some (some value) := by
  obtain ⟨x, xs, hxs, hidx, -⟩ := h.oldest hc hpc
  exact ⟨x, hidx ▸ hxs.head⟩

theorem Slots.writable {s : State w α} (h : Slots s) (hc : Counters s) (hno : NoCollision s)
    {value : α} {tail : BitVec w} (hpc : s.producer = .vacant value tail) :
    s.inner.buffer[s.inner.idx tail]? = some none := by
  obtain ⟨xs, hend, hxs, hlen, hidx⟩ := h.vacant hc hpc
  have hd := hc.spread_succ hno hpc
  rw [← hlen] at hd
  rw [hidx]
  exact hxs.free hd (hidx ▸ s.inner.idx_lt tail)

theorem Slots.live_length {s : State w α} (h : Slots s) (hc : Counters s) :
    s.live.length ≤ s.inner.capacity.toNat := by
  have hlen := congrArg List.length (h.live_eq hc)
  simp only [List.length_append, List.length_map, hc.popped_length, hc.accepted_length] at hlen
  have := hc.occupancy_le
  omega

/-- **No loss, no duplication, no uninitialised read.** In every state reachable from a
fresh channel under any interleaving and with stale loads of the other side's index, as
long as the capacity divides `2 ^ w` or fewer than `2 ^ w` items have been accepted. -/
theorem delivered_of_reaches {capacity : BitVec w} {inner : Inner w α}
    (hch : channel capacity = .ok inner) {s : State w α}
    (hreach : Transition.Reaches step (.start inner) s)
    (hno : capacity.toNat ∣ 2 ^ w ∨ s.accepted.length < 2 ^ w) : Delivered capacity s := by
  have hcap : s.inner.capacity = capacity :=
    (capacity_of_reaches hreach).trans (channel_eq_ok hch).2.1
  have hno' : NoCollision s := by rwa [NoCollision, hcap]
  have hc := (Counters.of_channel hch).reaches hreach
  have hs := Slots.reaches hreach (.of_channel hch) (.of_channel hch) hno'
  refine ⟨hs.live_eq hc, hcap ▸ hs.live_length hc, hs.initialised,
    fun _ => hs.readable hc, fun _ _ => hs.writable hc hno', ?_⟩
  intro value tail head hpush hpop heq
  obtain ⟨x, hx⟩ := hs.readable hc hpop
  rw [← heq, hs.writable hc hno' hpush] at hx
  cases hx

/-- A queue of two refuses a value on a stale load of `head`, and hands out an item on a
stale load of `tail`. -/
theorem delivered_after_stale_loads :
    ∃ inner : Inner 2 ℕ, channel 2#2 = .ok inner ∧ ∃ s,
      Transition.run step (.start inner)
        [.push (.loadTail 7), .push (.loadHead 0), .push .write, .push .storeTail,
          .push (.loadTail 8), .pop .loadHead, .push (.loadHead 0), .push .write,
          .push .storeTail, .pop (.loadTail 1), .pop .read, .push (.loadTail 9),
          .pop .storeHead, .push (.loadHead 0), .push .returnErr] = some s ∧
      s.popped = [7] ∧ s.rejected = [9] ∧ s.live = [some 8] ∧ Delivered 2#2 s := by
  refine ⟨_, rfl, ?s, ?run, ?_, ?_, ?_,
    delivered_of_reaches (by rfl) (.of_run ?run) (.inl (by decide))⟩
  case run => rfl
  all_goals rfl

end Ring
