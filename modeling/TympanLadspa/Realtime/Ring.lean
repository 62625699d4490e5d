import TympanLadspa.Foundations.Location
import TympanLadspa.Foundations.Transition
import TympanLadspa.Foundations.Window

/-!
# The realtime SPSC ring

The model of `realtime/ring.rs`. A `usize` is a `BitVec w`; a slot of the buffer
is `none` while it is uninitialised, and becomes `none` again when the consumer
reads it out. `head` and `tail` are atomic locations with their modification
order, so that a load of the other side's index may return an older entry.

`tryPush` and `tryPop` are the calls of the source as functions of the shared
storage. `pushStep` and `popStep` split `try_push` and `try_pop` into their accesses
to shared memory; `step` interleaves one producer and one consumer.
-/

namespace Ring

variable {w : ℕ} {α : Type*}

/-- The storage shared by the two halves of a queue. -/
structure Inner (w : ℕ) (α : Type*) where
  buffer : List (Option α)
  capacity : BitVec w
  head : Location (BitVec w)
  tail : Location (BitVec w)
  capacity_pos : 0 < capacity.toNat
  buffer_length : buffer.length = capacity.toNat

namespace Inner

/-- The slot of a counter: `counter % capacity`. -/
def idx (inner : Inner w α) (counter : BitVec w) : ℕ := (counter % inner.capacity).toNat

/-- Fill or empty one slot. -/
def setSlot (inner : Inner w α) (i : ℕ) (cell : Option α) : Inner w α :=
  { inner with
    buffer := inner.buffer.set i cell
    buffer_length := by rw [List.length_set, inner.buffer_length] }

def storeHead (inner : Inner w α) (head : BitVec w) : Inner w α :=
  { inner with head := inner.head.store head }

def storeTail (inner : Inner w α) (tail : BitVec w) : Inner w α :=
  { inner with tail := inner.tail.store tail }

/-- The cells of `n` consecutive counters from `start` on. -/
def cells (inner : Inner w α) (start : BitVec w) (n : ℕ) : List (Option α) :=
  (List.range n).map fun k => (inner.buffer[inner.idx (start + BitVec.ofNat w k)]?).join

theorem idx_lt (inner : Inner w α) (counter : BitVec w) :
    inner.idx counter < inner.buffer.length := by
  rw [inner.buffer_length, idx, BitVec.toNat_umod]
  exact Nat.mod_lt _ inner.capacity_pos

/-- The slot of an unbounded position is its wrapped counter modulo the capacity. -/
theorem idx_ofNat (inner : Inner w α) (p : ℕ) :
    inner.idx (BitVec.ofNat w p) = Window.slot (2 ^ w) inner.capacity.toNat p := by
  rw [idx, BitVec.toNat_umod, BitVec.toNat_ofNat, Window.slot]

theorem capacity_lt (inner : Inner w α) : inner.capacity.toNat < 2 ^ w := inner.capacity.isLt

@[simp] theorem setSlot_capacity (inner : Inner w α) (i : ℕ) (cell : Option α) :
    (inner.setSlot i cell).capacity = inner.capacity := rfl

@[simp] theorem setSlot_head (inner : Inner w α) (i : ℕ) (cell : Option α) :
    (inner.setSlot i cell).head = inner.head := rfl

@[simp] theorem setSlot_tail (inner : Inner w α) (i : ℕ) (cell : Option α) :
    (inner.setSlot i cell).tail = inner.tail := rfl

@[simp] theorem setSlot_buffer (inner : Inner w α) (i : ℕ) (cell : Option α) :
    (inner.setSlot i cell).buffer = inner.buffer.set i cell := rfl

@[simp] theorem storeHead_capacity (inner : Inner w α) (b : BitVec w) :
    (inner.storeHead b).capacity = inner.capacity := rfl

@[simp] theorem storeHead_head (inner : Inner w α) (b : BitVec w) :
    (inner.storeHead b).head = inner.head.store b := rfl

@[simp] theorem storeHead_tail (inner : Inner w α) (b : BitVec w) :
    (inner.storeHead b).tail = inner.tail := rfl

@[simp] theorem storeHead_buffer (inner : Inner w α) (b : BitVec w) :
    (inner.storeHead b).buffer = inner.buffer := rfl

@[simp] theorem storeTail_capacity (inner : Inner w α) (b : BitVec w) :
    (inner.storeTail b).capacity = inner.capacity := rfl

@[simp] theorem storeTail_head (inner : Inner w α) (b : BitVec w) :
    (inner.storeTail b).head = inner.head := rfl

@[simp] theorem storeTail_tail (inner : Inner w α) (b : BitVec w) :
    (inner.storeTail b).tail = inner.tail.store b := rfl

@[simp] theorem storeTail_buffer (inner : Inner w α) (b : BitVec w) :
    (inner.storeTail b).buffer = inner.buffer := rfl

end Inner

/-- `channel`: a fresh queue, or the panic on capacity zero. -/
def channel (capacity : BitVec w) : Except String (Inner w α) :=
  if h : 0 < capacity.toNat then
    .ok
      { buffer := List.replicate capacity.toNat none
        capacity := capacity
        head := .new 0
        tail := .new 0
        capacity_pos := h
        buffer_length := List.length_replicate }
  else
    .error "channel capacity must be non-zero"

theorem channel_eq_ok {capacity : BitVec w} {inner : Inner w α}
    (h : channel capacity = .ok inner) :
    inner.buffer = List.replicate capacity.toNat none ∧ inner.capacity = capacity ∧
      inner.head = .new 0 ∧ inner.tail = .new 0 := by
  unfold channel at h
  split at h
  · cases h
    exact ⟨rfl, rfl, rfl, rfl⟩
  · cases h

/-- `channel` panics on capacity zero and on nothing else. -/
theorem channel_isOk_iff (capacity : BitVec w) :
    (∃ inner : Inner w α, channel capacity = .ok inner) ↔ 0 < capacity.toNat := by
  unfold channel
  split <;> simp_all

/-- `Producer::try_push`, run without interruption. -/
def tryPush (inner : Inner w α) (value : α) : Except α Unit × Inner w α :=
  let tail := inner.tail.last
  let head := inner.head.last
  if inner.capacity ≤ tail - head then
    (.error value, inner)
  else
    (.ok (), (inner.setSlot (inner.idx tail) (some value)).storeTail (tail + 1))

/-- `Consumer::try_pop`, run without interruption; `none` when it would read an
uninitialised slot. -/
def tryPop (inner : Inner w α) : Option (Option α × Inner w α) :=
  let head := inner.head.last
  let tail := inner.tail.last
  if head = tail then
    some (none, inner)
  else
    match inner.buffer[inner.idx head]? with
    | some (some value) =>
      some (some value, (inner.setSlot (inner.idx head) none).storeHead (head + 1))
    | _ => none

/-- Where the producer stands inside `try_push`. -/
inductive PushPc (w : ℕ) (α : Type*)
  | idle
  | loadedTail (value : α) (tail : BitVec w)
  | full (value : α)
  | vacant (value : α) (tail : BitVec w)
  | written (value : α) (tail : BitVec w)
deriving Repr, DecidableEq

/-- The value of a call that has not returned. -/
def PushPc.offering : PushPc w α → List α
  | .idle => []
  | .loadedTail value _ | .full value | .vacant value _ | .written value _ => [value]

/-- Where the consumer stands inside `try_pop`; `uninit` is the read of an
uninitialised slot. -/
inductive PopPc (w : ℕ) (α : Type*)
  | idle
  | loadedHead (head : BitVec w)
  | empty
  | ready (head : BitVec w)
  | taken (value : α) (head : BitVec w)
  | uninit
deriving Repr, DecidableEq

/-- The steps of `try_push`. A load of `head` names the place of the modification
order it returns. -/
inductive PushAct (α : Type*)
  | loadTail (value : α)
  | loadHead (place : ℕ)
  | returnErr
  | write
  | storeTail
deriving Repr, DecidableEq

/-- The steps of `try_pop`. A load of `tail` names the place of the modification
order it returns. -/
inductive PopAct
  | loadHead
  | loadTail (place : ℕ)
  | returnNone
  | read
  | storeHead
deriving Repr, DecidableEq

inductive Act (α : Type*)
  | push (a : PushAct α)
  | pop (a : PopAct)
deriving Repr, DecidableEq

/-- One producer and one consumer on a shared queue. `seenHead` and `seenTail` are
the places each side last observed of the other side's index; the four lists
record the outcome of the calls so far and no step reads them. -/
structure State (w : ℕ) (α : Type*) where
  inner : Inner w α
  producer : PushPc w α
  consumer : PopPc w α
  seenHead : ℕ
  seenTail : ℕ
  offered : List α
  accepted : List α
  rejected : List α
  popped : List α

/-- Both halves idle on the given storage, with nothing called yet. -/
def State.start (inner : Inner w α) : State w α :=
  { inner := inner, producer := .idle, consumer := .idle, seenHead := 0, seenTail := 0
    offered := [], accepted := [], rejected := [], popped := [] }

def pushStep (s : State w α) : PushAct α → Option (State w α)
  | .loadTail value =>
    match s.producer with
    | .idle =>
      some { s with
        producer := .loadedTail value s.inner.tail.last
        offered := s.offered ++ [value] }
    | _ => none
  | .loadHead place =>
    match s.producer with
    | .loadedTail value tail =>
      if s.seenHead ≤ place then
        (s.inner.head.read place).map fun head =>
          { s with
            seenHead := place
            producer :=
              if s.inner.capacity ≤ tail - head then .full value else .vacant value tail }
      else none
    | _ => none
  | .returnErr =>
    match s.producer with
    | .full value => some { s with producer := .idle, rejected := s.rejected ++ [value] }
    | _ => none
  | .write =>
    match s.producer with
    | .vacant value tail =>
      some { s with
        inner := s.inner.setSlot (s.inner.idx tail) (some value)
        producer := .written value tail }
    | _ => none
  | .storeTail =>
    match s.producer with
    | .written value tail =>
      some { s with
        inner := s.inner.storeTail (tail + 1)
        producer := .idle
        accepted := s.accepted ++ [value] }
    | _ => none

def popStep (s : State w α) : PopAct → Option (State w α)
  | .loadHead =>
    match s.consumer with
    | .idle => some { s with consumer := .loadedHead s.inner.head.last }
    | _ => none
  | .loadTail place =>
    match s.consumer with
    | .loadedHead head =>
      if s.seenTail ≤ place then
        (s.inner.tail.read place).map fun tail =>
          { s with
            seenTail := place
            consumer := if head = tail then .empty else .ready head }
      else none
    | _ => none
  | .returnNone =>
    match s.consumer with
    | .empty => some { s with consumer := .idle }
    | _ => none
  | .read =>
    match s.consumer with
    | .ready head =>
      match s.inner.buffer[s.inner.idx head]? with
      | some (some value) =>
        some { s with
          inner := s.inner.setSlot (s.inner.idx head) none
          consumer := .taken value head }
      | _ => some { s with consumer := .uninit }
    | _ => none
  | .storeHead =>
    match s.consumer with
    | .taken value head =>
      some { s with
        inner := s.inner.storeHead (head + 1)
        consumer := .idle
        popped := s.popped ++ [value] }
    | _ => none

/-- One step of either side. -/
def step (s : State w α) : Act α → Option (State w α)
  | .push a => pushStep s a
  | .pop a => popStep s a

-- ════════════════════════════════════════════════════════════════════════
-- What a step can do
-- ════════════════════════════════════════════════════════════════════════

/-- The steps of the producer, one constructor for each outcome. -/
inductive PushStep (s : State w α) : PushAct α → State w α → Prop
  | loadTail {value : α} (hpc : s.producer = .idle) :
      PushStep s (.loadTail value)
        { s with
          producer := .loadedTail value s.inner.tail.last
          offered := s.offered ++ [value] }
  | full {value : α} {tail head : BitVec w} {place : ℕ}
      (hpc : s.producer = .loadedTail value tail) (hseen : s.seenHead ≤ place)
      (hread : s.inner.head.read place = some head)
      (hfull : s.inner.capacity ≤ tail - head) :
      PushStep s (.loadHead place) { s with seenHead := place, producer := .full value }
  | vacant {value : α} {tail head : BitVec w} {place : ℕ}
      (hpc : s.producer = .loadedTail value tail) (hseen : s.seenHead ≤ place)
      (hread : s.inner.head.read place = some head)
      (hroom : ¬ s.inner.capacity ≤ tail - head) :
      PushStep s (.loadHead place) { s with seenHead := place, producer := .vacant value tail }
  | returnErr {value : α} (hpc : s.producer = .full value) :
      PushStep s .returnErr { s with producer := .idle, rejected := s.rejected ++ [value] }
  | write {value : α} {tail : BitVec w} (hpc : s.producer = .vacant value tail) :
      PushStep s .write
        { s with
          inner := s.inner.setSlot (s.inner.idx tail) (some value)
          producer := .written value tail }
  | storeTail {value : α} {tail : BitVec w} (hpc : s.producer = .written value tail) :
      PushStep s .storeTail
        { s with
          inner := s.inner.storeTail (tail + 1)
          producer := .idle
          accepted := s.accepted ++ [value] }

/-- The steps of the consumer, one constructor for each outcome. -/
inductive PopStep (s : State w α) : PopAct → State w α → Prop
  | loadHead (hpc : s.consumer = .idle) :
      PopStep s .loadHead { s with consumer := .loadedHead s.inner.head.last }
  | empty {head : BitVec w} {place : ℕ} (hpc : s.consumer = .loadedHead head)
      (hseen : s.seenTail ≤ place) (hread : s.inner.tail.read place = some head) :
      PopStep s (.loadTail place) { s with seenTail := place, consumer := .empty }
  | ready {head tail : BitVec w} {place : ℕ} (hpc : s.consumer = .loadedHead head)
      (hseen : s.seenTail ≤ place) (hread : s.inner.tail.read place = some tail)
      (hne : head ≠ tail) :
      PopStep s (.loadTail place) { s with seenTail := place, consumer := .ready head }
  | returnNone (hpc : s.consumer = .empty) : PopStep s .returnNone { s with consumer := .idle }
  | read {value : α} {head : BitVec w} (hpc : s.consumer = .ready head)
      (hcell : s.inner.buffer[s.inner.idx head]? = some (some value)) :
      PopStep s .read
        { s with
          inner := s.inner.setSlot (s.inner.idx head) none
          consumer := .taken value head }
  | uninit {head : BitVec w} (hpc : s.consumer = .ready head)
      (hcell : ∀ value, s.inner.buffer[s.inner.idx head]? ≠ some (some value)) :
      PopStep s .read { s with consumer := .uninit }
  | storeHead {value : α} {head : BitVec w} (hpc : s.consumer = .taken value head) :
      PopStep s .storeHead
        { s with
          inner := s.inner.storeHead (head + 1)
          consumer := .idle
          popped := s.popped ++ [value] }

theorem pushStep_eq_some_iff {s t : State w α} {a : PushAct α} :
    pushStep s a = some t ↔ PushStep s a t := by
  constructor
  · intro h
    cases a with
    | loadTail value =>
      simp only [pushStep] at h
      split at h
      · next hpc => cases h; exact .loadTail hpc
      · cases h
    | loadHead place =>
      simp only [pushStep] at h
      split at h
      · next hpc =>
        split at h
        · next hseen =>
          obtain ⟨head, hread, rfl⟩ := Option.map_eq_some_iff.mp h
          split
          · next hfull => exact .full hpc hseen hread hfull
          · next hroom => exact .vacant hpc hseen hread hroom
        · cases h
      · cases h
    | returnErr =>
      simp only [pushStep] at h
      split at h
      · next hpc => cases h; exact .returnErr hpc
      · cases h
    | write =>
      simp only [pushStep] at h
      split at h
      · next hpc => cases h; exact .write hpc
      · cases h
    | storeTail =>
      simp only [pushStep] at h
      split at h
      · next hpc => cases h; exact .storeTail hpc
      · cases h
  · intro h
    cases h with
    | loadTail hpc => simp only [pushStep, hpc]
    | full hpc hseen hread hfull => simp [pushStep, hpc, hseen, hread, hfull]
    | vacant hpc hseen hread hroom => simp [pushStep, hpc, hseen, hread, hroom]
    | returnErr hpc => simp only [pushStep, hpc]
    | write hpc => simp only [pushStep, hpc]
    | storeTail hpc => simp only [pushStep, hpc]

theorem popStep_eq_some_iff {s t : State w α} {a : PopAct} :
    popStep s a = some t ↔ PopStep s a t := by
  constructor
  · intro h
    cases a with
    | loadHead =>
      simp only [popStep] at h
      split at h
      · next hpc => cases h; exact .loadHead hpc
      · cases h
    | loadTail place =>
      simp only [popStep] at h
      split at h
      · next hpc =>
        split at h
        · next hseen =>
          obtain ⟨tail, hread, rfl⟩ := Option.map_eq_some_iff.mp h
          split
          · next heq => subst heq; exact .empty hpc hseen hread
          · next hne => exact .ready hpc hseen hread hne
        · cases h
      · cases h
    | returnNone =>
      simp only [popStep] at h
      split at h
      · next hpc => cases h; exact .returnNone hpc
      · cases h
    | read =>
      simp only [popStep] at h
      split at h
      · next hpc =>
        split at h
        · next hcell => cases h; exact .read hpc hcell
        · next hcell => cases h; exact .uninit hpc hcell
      · cases h
    | storeHead =>
      simp only [popStep] at h
      split at h
      · next hpc => cases h; exact .storeHead hpc
      · cases h
  · intro h
    cases h with
    | loadHead hpc => simp only [popStep, hpc]
    | empty hpc hseen hread => simp [popStep, hpc, hseen, hread]
    | ready hpc hseen hread hne => simp [popStep, hpc, hseen, hread, hne]
    | returnNone hpc => simp only [popStep, hpc]
    | read hpc hcell => simp [popStep, hpc, hcell]
    | uninit hpc hcell => simp only [popStep, hpc]
    | storeHead hpc => simp only [popStep, hpc]

/-- A step of the system is a step of one of its sides. -/
theorem step_cases {s t : State w α} {a : Act α} (h : step s a = some t) :
    (∃ b, a = .push b ∧ PushStep s b t) ∨ (∃ b, a = .pop b ∧ PopStep s b t) := by
  cases a with
  | push b => exact .inl ⟨b, rfl, pushStep_eq_some_iff.mp h⟩
  | pop b => exact .inr ⟨b, rfl, popStep_eq_some_iff.mp h⟩

/-- The consumer does not touch what the producer keeps to itself. -/
theorem PopStep.frame {s t : State w α} {a : PopAct} (h : PopStep s a t) :
    t.producer = s.producer ∧ t.accepted = s.accepted ∧ t.rejected = s.rejected := by
  cases h <;> exact ⟨rfl, rfl, rfl⟩

/-- The producer does not touch what the consumer keeps to itself. -/
theorem PushStep.frame {s t : State w α} {a : PushAct α} (h : PushStep s a t) :
    t.consumer = s.consumer ∧ t.popped = s.popped := by
  cases h <;> exact ⟨rfl, rfl⟩

end Ring
