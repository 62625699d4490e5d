import TympanLadspa.Realtime.RingInvariant
import Mathlib.Data.List.Perm.Basic

/-!
# Dropping the ring

The two halves share the storage through an `Arc`; `Inner::drop` runs once, when the
second half goes, and drops what has not been popped. Every value ever offered leaves
the queue exactly once: refused, popped or dropped.
-/

namespace Ring

open Window (slot Distinct Holds placed)

variable {w : ℕ} {α : Type*}

/-- The loop of `Inner::drop`: the slots it visits with the values it drops, in order;
`none` when it would drop an uninitialised slot. -/
def dropLoop (inner : Inner w α) (head tail : BitVec w) : Option (List (ℕ × α)) :=
  if head = tail then
    some []
  else
    match inner.buffer[inner.idx head]? with
    | some (some value) =>
      (dropLoop (inner.setSlot (inner.idx head) none) (head + 1) tail).map
        ((inner.idx head, value) :: ·)
    | _ => none
termination_by (tail - head).toNat
decreasing_by exact Window.toNat_sub_add_one_lt ‹_›

/-- `Inner::drop`. -/
def dropInner (inner : Inner w α) : Option (List (ℕ × α)) :=
  dropLoop inner inner.head.last inner.tail.last

theorem dropLoop_self (inner : Inner w α) (tail : BitVec w) :
    dropLoop inner tail tail = some [] := by
  rw [dropLoop, if_pos rfl]

theorem dropLoop_of_cell {inner : Inner w α} {head tail : BitVec w} {value : α}
    (hne : head ≠ tail) (hcell : inner.buffer[inner.idx head]? = some (some value)) :
    dropLoop inner head tail =
      (dropLoop (inner.setSlot (inner.idx head) none) (head + 1) tail).map
        ((inner.idx head, value) :: ·) := by
  rw [dropLoop, if_neg hne, hcell]

/-- **Loop lemma.** On a buffer that holds a window without collisions the loop visits
the slots of the window, oldest first. -/
theorem dropLoop_of_holds {inner : Inner w α} {lo : ℕ} {xs : List α}
    (h : Holds (slot (2 ^ w) inner.capacity.toNat) inner.buffer lo xs)
    (hd : Distinct (slot (2 ^ w) inner.capacity.toNat) lo xs.length)
    (hlen : xs.length < 2 ^ w) :
    dropLoop inner (BitVec.ofNat w lo) (BitVec.ofNat w (lo + xs.length)) =
      some (placed (slot (2 ^ w) inner.capacity.toNat) lo xs) := by
  induction xs generalizing inner lo with
  | nil => exact dropLoop_self inner _
  | cons x xs ih =>
    rw [List.length_cons] at hlen
    have hne : BitVec.ofNat w lo ≠ BitVec.ofNat w (lo + (x :: xs).length) := by
      rw [ne_eq, Window.ofNat_eq_iff (by omega) (by rw [List.length_cons]; omega)]
      simp
    have hend : lo + (x :: xs).length = lo + 1 + xs.length := by
      rw [List.length_cons]
      omega
    have hrest := @ih (inner.setSlot (slot (2 ^ w) inner.capacity.toNat lo) none) (lo + 1)
      (h.pop hd) hd.tail (by omega)
    rw [dropLoop_of_cell hne (by rw [Inner.idx_ofNat]; exact h.head), hend,
      Inner.idx_ofNat, show BitVec.ofNat w lo + 1 = BitVec.ofNat w (lo + 1) from
        (BitVec.ofNat_add lo 1).symm, hrest]
    rfl

/-- What has become of the shared storage. -/
inductive Fate (α : Type*)
  | shared
  | freed (dropped : List (ℕ × α))
  | undefined
deriving Repr, DecidableEq

/-- A queue whose halves can be dropped. -/
structure Owned (w : ℕ) (α : Type*) where
  ring : State w α
  producerAlive : Bool
  consumerAlive : Bool
  fate : Fate α

inductive OwnedAct (α : Type*)
  | call (a : Act α)
  | dropProducer
  | dropConsumer
deriving Repr, DecidableEq

def Owned.start (inner : Inner w α) : Owned w α :=
  { ring := .start inner, producerAlive := true, consumerAlive := true, fate := .shared }

/-- `Arc::drop`: the storage goes with the last half. -/
def Owned.release (s : Owned w α) : Owned w α :=
  if s.producerAlive || s.consumerAlive then s
  else
    { s with
      fate :=
        match dropInner s.ring.inner with
        | some dropped => .freed dropped
        | none => .undefined }

/-- One step of a half that is still there, or the drop of one that is not inside a call. -/
def ownedStep (s : Owned w α) : OwnedAct α → Option (Owned w α)
  | .call (.push a) =>
    if s.producerAlive then (pushStep s.ring a).map fun ring => { s with ring := ring }
    else none
  | .call (.pop a) =>
    if s.consumerAlive then (popStep s.ring a).map fun ring => { s with ring := ring }
    else none
  | .dropProducer =>
    match s.producerAlive, s.ring.producer with
    | true, .idle => some (Owned.release { s with producerAlive := false })
    | _, _ => none
  | .dropConsumer =>
    match s.consumerAlive, s.ring.consumer with
    | true, .idle => some (Owned.release { s with consumerAlive := false })
    | _, _ => none

/-- Every value offered is refused, accepted or still in the producer's hands. -/
def Ledger (s : State w α) : Prop :=
  s.offered.Perm (s.rejected ++ s.accepted ++ s.producer.offering)

theorem Ledger.step {s t : State w α} {a : Act α} (h : Ledger s) (hstep : step s a = some t) :
    Ledger t := by
  unfold Ledger at *
  rcases step_cases hstep with ⟨b, rfl, hpush⟩ | ⟨b, rfl, hpop⟩
  · cases hpush with
    | @loadTail value hpc =>
      rw [hpc] at h
      simpa [PushPc.offering] using h.append_right [value]
    | full hpc hseen hread hfull => simpa [PushPc.offering, hpc] using h
    | vacant hpc hseen hread hroom => simpa [PushPc.offering, hpc] using h
    | @returnErr value hpc =>
      rw [hpc] at h
      refine h.trans ?_
      simp only [PushPc.offering, List.append_nil, List.append_assoc]
      exact List.perm_append_comm.append_left s.rejected
    | write hpc => simpa [PushPc.offering, hpc] using h
    | storeTail hpc => simpa [PushPc.offering, hpc] using h
  · cases hpop <;> exact h

/-- What the drop of the storage makes of a queue with both halves idle. -/
structure DroppedOnce (capacity : BitVec w) (s : State w α) (dropped : List (ℕ × α)) :
    Prop where
  /-- Every value ever offered was refused, popped or dropped, once. -/
  ledger : s.offered.Perm (s.rejected ++ s.popped ++ dropped.map Prod.snd)
  /-- Dropped are the items accepted and not popped, oldest first. -/
  fifo : s.popped ++ dropped.map Prod.snd = s.accepted
  /-- The loop runs through the counters from `head` to `tail`. -/
  visited : dropped.map Prod.fst =
    (List.range (s.inner.tail.last - s.inner.head.last).toNat).map fun k =>
      s.inner.idx (s.inner.head.last + BitVec.ofNat w k)
  nodup : (dropped.map Prod.fst).Nodup
  /-- The slots visited are the initialised ones. -/
  initialised : ∀ i value, (i, value) ∈ dropped ↔ s.inner.buffer[i]? = some (some value)
  iterations : dropped.length = (s.inner.tail.last - s.inner.head.last).toNat
  bounded : dropped.length ≤ capacity.toNat

/-- `Inner::drop` on a queue whose halves are idle. -/
theorem dropInner_of_idle {s : State w α} (hc : Counters s) (hs : Slots s)
    (hno : NoCollision s) (hl : Ledger s) (hpush : s.producer = .idle)
    (hpop : s.consumer = .idle) :
    ∃ dropped, dropInner s.inner = some dropped ∧ DroppedOnce s.inner.capacity s dropped := by
  obtain ⟨xs, hxs, heq⟩ := hs.holds
  rw [taken_eq_nil s (by simp [hpop])] at hxs heq
  rw [staged_eq_nil s (by simp [hpush]), List.append_nil, List.append_nil] at heq
  rw [List.length_nil, Nat.add_zero] at hxs
  have hlen := congrArg List.length heq
  rw [List.length_append, hc.popped_length, hc.accepted_length] at hlen
  have hocc := hc.occupancy_le
  have hcap := s.inner.capacity_lt
  have hd : Distinct (slot (2 ^ w) s.inner.capacity.toNat) s.inner.head.count xs.length :=
    hc.distinct hno (by omega) (by omega)
  have hdist : (s.inner.tail.last - s.inner.head.last).toNat = xs.length := by
    rw [hc.tails.last_eq, hc.heads.last_eq,
      Window.toNat_ofNat_sub hc.head_le_tail (by omega)]
    omega
  refine ⟨placed (slot (2 ^ w) s.inner.capacity.toNat) s.inner.head.count xs, ?_, ?_⟩
  · rw [dropInner, hc.heads.last_eq, hc.tails.last_eq, ← hlen]
    exact dropLoop_of_holds hxs hd (by omega)
  · refine ⟨?_, ?_, ?_, hd.placed_nodup, hxs.mem_placed_iff, ?_, ?_⟩
    · rw [Window.placed_snd, List.append_assoc, heq]
      have hidle := hl
      rwa [Ledger, hpush, PushPc.offering, List.append_nil] at hidle
    · rw [Window.placed_snd, heq]
    · rw [Window.placed_fst, hdist, hc.heads.last_eq]
      simp only [← BitVec.ofNat_add, Inner.idx_ofNat]
    · rw [Window.placed_length, hdist]
    · rw [Window.placed_length]
      omega

/-- A half that is gone was idle, and the storage went with the last one. -/
structure OwnedInv (inner : Inner w α) (s : Owned w α) : Prop where
  reaches : Transition.Reaches step (.start inner) s.ring
  producer_idle : s.producerAlive = false → s.ring.producer = .idle
  consumer_idle : s.consumerAlive = false → s.ring.consumer = .idle
  shared : s.producerAlive = true ∨ s.consumerAlive = true → s.fate = .shared
  gone : s.producerAlive = false → s.consumerAlive = false →
    s.fate = match dropInner s.ring.inner with
      | some dropped => .freed dropped
      | none => .undefined

namespace OwnedInv

variable {inner : Inner w α} {s t : Owned w α}

theorem start (inner : Inner w α) : OwnedInv inner (.start inner) where
  reaches := .refl _
  producer_idle := by intro h; cases h
  consumer_idle := by intro h; cases h
  shared := fun _ => rfl
  gone := by intro h; cases h

theorem release (hreach : Transition.Reaches Ring.step (.start inner) s.ring)
    (hpush : s.producerAlive = false → s.ring.producer = .idle)
    (hpop : s.consumerAlive = false → s.ring.consumer = .idle) (hfate : s.fate = .shared) :
    OwnedInv inner s.release := by
  unfold Owned.release
  split
  · next halive =>
    simp only [Bool.or_eq_true] at halive
    refine ⟨hreach, hpush, hpop, fun _ => hfate, ?_⟩
    intro hp hc
    simp [hp, hc] at halive
  · next hgone =>
    simp only [Bool.or_eq_true, not_or, Bool.not_eq_true] at hgone
    refine ⟨hreach, hpush, hpop, ?_, fun _ _ => rfl⟩
    rintro (hp | hc)
    · simp [hgone.1] at hp
    · simp [hgone.2] at hc

theorem step {a : OwnedAct α} (h : OwnedInv inner s) (hstep : ownedStep s a = some t) :
    OwnedInv inner t := by
  cases a with
  | call a =>
    cases a with
    | push a =>
      simp only [ownedStep] at hstep
      split at hstep
      · next halive =>
        obtain ⟨ring, hring, rfl⟩ := Option.map_eq_some_iff.mp hstep
        refine ⟨h.reaches.trans (.single (a := .push a) hring), by simp [halive], ?_,
          fun _ => h.shared (.inl halive), by simp [halive]⟩
        intro hgone
        exact (pushStep_eq_some_iff.mp hring).frame.1.trans (h.consumer_idle hgone)
      · cases hstep
    | pop a =>
      simp only [ownedStep] at hstep
      split at hstep
      · next halive =>
        obtain ⟨ring, hring, rfl⟩ := Option.map_eq_some_iff.mp hstep
        refine ⟨h.reaches.trans (.single (a := .pop a) hring), ?_, by simp [halive],
          fun _ => h.shared (.inr halive), by simp [halive]⟩
        intro hgone
        exact (popStep_eq_some_iff.mp hring).frame.1.trans (h.producer_idle hgone)
      · cases hstep
  | dropProducer =>
    simp only [ownedStep] at hstep
    split at hstep
    · next halive hidle =>
      cases hstep
      exact release h.reaches (fun _ => hidle) h.consumer_idle (h.shared (.inl halive))
    · cases hstep
  | dropConsumer =>
    simp only [ownedStep] at hstep
    split at hstep
    · next halive hidle =>
      cases hstep
      exact release h.reaches h.producer_idle (fun _ => hidle) (h.shared (.inr halive))
    · cases hstep

end OwnedInv

/-- **Exactly-once destruction.** In every run of calls and drops from a fresh channel, as
long as the capacity divides `2 ^ w` or fewer than `2 ^ w` items have been accepted: the
storage stays while one half does, and once both are gone every value offered has been
refused, popped or dropped in place. -/
theorem dropped_exactly_once {capacity : BitVec w} {inner : Inner w α}
    (hch : channel capacity = .ok inner) {s : Owned w α}
    (hreach : Transition.Reaches ownedStep (.start inner) s)
    (hno : capacity.toNat ∣ 2 ^ w ∨ s.ring.accepted.length < 2 ^ w) :
    (s.producerAlive = true ∨ s.consumerAlive = true → s.fate = .shared) ∧
      (s.producerAlive = false → s.consumerAlive = false →
        ∃ dropped, s.fate = .freed dropped ∧ DroppedOnce capacity s.ring dropped) := by
  have hinv : OwnedInv inner s :=
    hreach.invariant (fun _ _ _ h hstep => h.step hstep) (.start inner)
  refine ⟨hinv.shared, fun hp hc => ?_⟩
  have hcap : s.ring.inner.capacity = capacity :=
    (capacity_of_reaches hinv.reaches).trans (channel_eq_ok hch).2.1
  have hno' : NoCollision s.ring := by rwa [NoCollision, hcap]
  have hl : Ledger s.ring := hinv.reaches.invariant (fun _ _ _ h hstep => h.step hstep) .nil
  obtain ⟨dropped, hdrop, honce⟩ := dropInner_of_idle
    ((Counters.of_channel hch).reaches hinv.reaches)
    (.reaches hinv.reaches (.of_channel hch) (.of_channel hch) hno') hno' hl
    (hinv.producer_idle hp) (hinv.consumer_idle hc)
  refine ⟨dropped, ?_, hcap ▸ honce⟩
  rw [hinv.gone hp hc, hdrop]

/-- With one-bit counters, `tail` wrapped to zero and `head` at one, the producer gone first. -/
theorem dropped_behind_the_wrap :
    ∃ inner : Inner 1 ℕ, channel 1#1 = .ok inner ∧ ∃ s,
      Transition.run ownedStep (.start inner)
        [.call (.push (.loadTail 7)), .call (.push (.loadHead 0)), .call (.push .write),
          .call (.push .storeTail), .call (.pop .loadHead), .call (.pop (.loadTail 1)),
          .call (.pop .read), .call (.pop .storeHead), .call (.push (.loadTail 8)),
          .call (.push (.loadHead 1)), .call (.push .write), .call (.push .storeTail),
          .dropProducer, .dropConsumer] = some s ∧
      s.ring.inner.tail.last = 0 ∧ s.ring.inner.head.last = 1 ∧
      ∃ dropped, s.fate = .freed dropped ∧ DroppedOnce 1#1 s.ring dropped := by
  refine ⟨_, rfl, ?s, ?run, ?_, ?_,
    (dropped_exactly_once (by rfl) (.of_run ?run) (.inl (by decide))).2 ?_ ?_⟩
  case run => rfl
  all_goals rfl

end Ring
