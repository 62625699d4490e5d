import TympanLadspa.Realtime.LogFlush
import TympanLadspa.Realtime.RingDrop

/-!
# A drainer that panics

A panic of `drain_one` unwinds the drainer thread: its `Consumer` goes, `join` returns an
error that `LogSink::drop` discards, and the fields of the sink go behind it, its `Producer`
first. `Owned` adds the two halves of the ring to the sink, so that the storage is dropped
with the last of them.
-/

namespace LogSink

open Ring (PushPc PushStep Counters Slots NoCollision Ledger Fate DroppedOnce)

variable {w : ℕ} {α : Type*}

/-- A sink, the halves of its ring that are there, and what has become of the storage. -/
structure Owned (w : ℕ) (α : Type*) where
  sink : State w α
  producerAlive : Bool
  consumerAlive : Bool
  fate : Fate α

/-- A step of the sink, the end of the drainer's closure, or the drop of the sink's fields. -/
inductive OwnedAct (α : Type*)
  | act (a : Act α)
  | dropConsumer
  | dropProducer
deriving Repr, DecidableEq

def Owned.start (s : State w α) : Owned w α :=
  { sink := s, producerAlive := true, consumerAlive := true, fate := .shared }

/-- The drop of a half: `Inner::drop` runs when it was the last one. -/
def Owned.release (o : Owned w α) : Owned w α :=
  { o with
    fate := (Ring.Owned.release ⟨o.sink.ring, o.producerAlive, o.consumerAlive, o.fate⟩).fate }

/-- One step of the sink, where `join` waits for the end of the drainer's closure. -/
def ownedStep (panicAt : Option ℕ) (o : Owned w α) : OwnedAct α → Option (Owned w α)
  | .act a =>
    if a.isJoin && o.consumerAlive then none
    else (step panicAt o.sink a).map fun sink => { o with sink := sink }
  | .dropConsumer =>
    match o.consumerAlive, o.sink.drainer with
    | true, .exited | true, .panicked => some (Owned.release { o with consumerAlive := false })
    | _, _ => none
  | .dropProducer =>
    match o.producerAlive, o.sink.logger with
    | true, .dropped => some (Owned.release { o with producerAlive := false })
    | _, _ => none

/-- The steps of the sink with its halves, one constructor for each outcome. -/
inductive OwnedStep (panicAt : Option ℕ) (o : Owned w α) : OwnedAct α → Owned w α → Prop
  | act {a : Act α} {t : State w α} (hjoin : a = .join → o.consumerAlive = false)
      (hstep : Step panicAt o.sink a t) : OwnedStep panicAt o (.act a) { o with sink := t }
  | dropConsumer (halive : o.consumerAlive = true)
      (hdone : o.sink.drainer = .exited ∨ o.sink.drainer = .panicked) :
      OwnedStep panicAt o .dropConsumer (Owned.release { o with consumerAlive := false })
  | dropProducer (halive : o.producerAlive = true) (hdropped : o.sink.logger = .dropped) :
      OwnedStep panicAt o .dropProducer (Owned.release { o with producerAlive := false })

section

variable {panicAt : Option ℕ} {o o' : Owned w α}

theorem ownedStep_cases {a : OwnedAct α} (h : ownedStep panicAt o a = some o') :
    OwnedStep panicAt o a o' := by
  cases a with
  | act a =>
    simp only [ownedStep] at h
    split at h
    · cases h
    · next hjoin =>
      obtain ⟨t, ht, rfl⟩ := Option.map_eq_some_iff.mp h
      refine .act ?_ (step_cases ht)
      rintro rfl
      simpa [Act.isJoin] using hjoin
  | dropConsumer =>
    simp only [ownedStep] at h
    split at h
    · next halive hdone => cases h; exact .dropConsumer halive (.inl hdone)
    · next halive hdone => cases h; exact .dropConsumer halive (.inr hdone)
    · cases h
  | dropProducer =>
    simp only [ownedStep] at h
    split at h
    · next halive hdropped => cases h; exact .dropProducer halive hdropped
    · cases h

/-- A step of the sink with its halves is a step of the sink or leaves it as it is. -/
theorem ownedStep_sink {a : OwnedAct α} (h : ownedStep panicAt o a = some o') :
    (∃ b, a = .act b ∧ step panicAt o.sink b = some o'.sink) ∨
      (∀ b, a ≠ .act b) ∧ o'.sink = o.sink := by
  cases a with
  | act a =>
    simp only [ownedStep] at h
    split at h
    · cases h
    · obtain ⟨t, ht, rfl⟩ := Option.map_eq_some_iff.mp h
      exact .inl ⟨a, rfl, ht⟩
  | dropConsumer =>
    cases ownedStep_cases h with
    | dropConsumer => exact .inr ⟨nofun, rfl⟩
  | dropProducer =>
    cases ownedStep_cases h with
    | dropProducer => exact .inr ⟨nofun, rfl⟩

/-- The steps of the sink in a run of the sink with its halves. -/
def sinkActs (_ : Owned w α) : OwnedAct α → List (Act α)
  | .act a => [a]
  | .dropConsumer | .dropProducer => []

theorem sinkActs_eq_nil {a : OwnedAct α} (h : ∀ b, a ≠ .act b) : sinkActs o a = [] := by
  cases a with
  | act a => exact absurd rfl (h a)
  | dropConsumer => rfl
  | dropProducer => rfl

/-- A run of the sink with its halves is a run of the sink. -/
theorem reaches_sink (h : Transition.Reaches (ownedStep panicAt) o o') :
    Transition.Reaches (step panicAt) o.sink o'.sink := by
  obtain ⟨as, hrun⟩ := h
  have hproj : ∀ (o : Owned w α) a o', ownedStep panicAt o a = some o' →
      Transition.run (step panicAt) o.sink (sinkActs o a) = some o'.sink := by
    intro o a o' hstep
    obtain ⟨b, rfl, hb⟩ | ⟨hne, hsink⟩ := ownedStep_sink hstep
    · exact Transition.run_cons_eq_some.mpr ⟨_, hb, rfl⟩
    · rw [sinkActs_eq_nil hne, hsink]
      rfl
  exact ⟨_, Transition.run_project hproj hrun⟩

/-- A drainer that is done stays as it is. -/
theorem Step.drainer_done {s t : State w α} {a : Act α} (h : Step panicAt s a t)
    (hdone : s.drainer = .exited ∨ s.drainer = .panicked) :
    t.drainer = s.drainer ∧ t.drained = s.drained ∧ t.ring.popped = s.ring.popped := by
  cases h with
  | log hlogger hpush => exact ⟨rfl, rfl, hpush.frame.2⟩
  | storeShutdown => exact ⟨rfl, rfl, rfl⟩
  | join => exact ⟨rfl, rfl, rfl⟩
  | _ => simp_all

/-- Behind the drop of the sink there is nothing left to do. -/
theorem Step.not_dropped {s t : State w α} {a : Act α} (h : Step panicAt s a t)
    (hdone : s.drainer = .exited ∨ s.drainer = .panicked) : s.logger ≠ .dropped := by
  cases h <;> simp_all

/-- The order in which the halves go: the consumer before `join` returns, the producer behind
it, and the storage with the producer. -/
structure Owned.Ordered (o : Owned w α) : Prop where
  consumer_gone : o.consumerAlive = false → o.sink.drainer = .exited ∨ o.sink.drainer = .panicked
  joined : o.sink.logger = .dropped → o.consumerAlive = false
  producer_gone : o.producerAlive = false → o.sink.logger = .dropped
  shared : o.producerAlive = true → o.fate = .shared
  freed : o.producerAlive = false →
    o.fate = match Ring.dropInner o.sink.ring.inner with
      | some dropped => .freed dropped
      | none => .undefined

namespace Owned.Ordered

theorem start (s : State w α) (h : s.logger ≠ .dropped) : (Owned.start s).Ordered where
  consumer_gone := nofun
  joined := fun hdropped => absurd hdropped h
  producer_gone := nofun
  shared := fun _ => rfl
  freed := nofun

theorem act {a : Act α} {t : State w α} (h : o.Ordered)
    (hjoin : a = .join → o.consumerAlive = false) (hstep : Step panicAt o.sink a t) :
    Owned.Ordered { o with sink := t } := by
  -- a producer that is gone leaves no step
  have halive : o.producerAlive ≠ false := by
    intro hgone
    have hdropped := h.producer_gone hgone
    exact hstep.not_dropped (h.consumer_gone (h.joined hdropped)) hdropped
  refine ⟨?_, ?_, fun hgone => absurd hgone halive, h.shared, fun hgone => absurd hgone halive⟩
  · intro hgone
    have hdone := h.consumer_gone hgone
    rw [(hstep.drainer_done hdone).1]
    exact hdone
  · intro hdropped
    cases hstep with
    | join => exact hjoin rfl
    | storeShutdown => cases hdropped
    | _ => exact h.joined hdropped

theorem step {a : OwnedAct α} (h : o.Ordered) (hstep : ownedStep panicAt o a = some o') :
    o'.Ordered := by
  cases ownedStep_cases hstep with
  | act hjoin hact => exact h.act hjoin hact
  | dropConsumer halive hdone =>
    have hproducer : o.producerAlive = true := by
      by_contra hgone
      rw [Bool.not_eq_true] at hgone
      rw [h.joined (h.producer_gone hgone)] at halive
      cases halive
    refine ⟨fun _ => hdone, fun _ => rfl, h.producer_gone, ?_, ?_⟩
    · intro _
      simp [Owned.release, Ring.Owned.release, hproducer, h.shared hproducer]
    · intro hgone
      cases hproducer.symm.trans hgone
  | dropProducer halive hdropped =>
    have hconsumer := h.joined hdropped
    refine ⟨h.consumer_gone, h.joined, fun _ => hdropped, nofun, fun _ => ?_⟩
    simp only [Owned.release, Ring.Owned.release, hconsumer]
    rfl

theorem reaches (h : o.Ordered) (hreach : Transition.Reaches (ownedStep panicAt) o o') :
    o'.Ordered :=
  hreach.invariant (fun _ _ _ h hstep => h.step hstep) h

end Owned.Ordered

end

-- ════════════════════════════════════════════════════════════════════════
-- What log answers
-- ════════════════════════════════════════════════════════════════════════

/-- How many events a ring without a consumer can still take. -/
def State.room (s : State w α) : ℕ :=
  s.ring.inner.capacity.toNat - (s.ring.accepted.length - s.ring.popped.length)

/-- What `log` has answered between two states: true for the room taken, and false only when
there is none left. -/
def Answered (s t : State w α) : Prop :=
  ∃ answers n, t.results = s.results ++ answers ∧
    answers.map Prod.snd = List.replicate (s.room - t.room) true ++ List.replicate n false ∧
    t.room ≤ s.room ∧ (0 < n → t.room = 0)

/-- A drainer that has panicked, and a producer that has found the ring full only when it was. -/
structure Alone (k : ℕ) (s : State w α) : Prop where
  sound : Sound (some k) s
  panicked : s.drainer = .panicked
  full : ∀ value, s.ring.producer = .full value → s.room = 0

namespace Alone

variable {k : ℕ} {s t : State w α}

theorem occupancy (h : Alone k s) :
    s.ring.accepted.length - s.ring.popped.length =
      s.ring.inner.tail.count - s.ring.inner.head.count := by
  rw [h.sound.counters.accepted_length, h.sound.counters.popped_length]

/-- **Step.** Behind the panic a step adds one true answer and takes one place, or adds a false
one to a full ring, or adds none. -/
theorem answers {a : Act α} (h : Alone k s) (hstep : stepCurrent (some k) s a = some t) :
    Alone k t ∧ t.drained = s.drained ∧
      (t.results = s.results ∧ t.room = s.room ∨
        (∃ value, t.results = s.results ++ [(value, true)] ∧ s.room = t.room + 1) ∨
        ∃ value, t.results = s.results ++ [(value, false)] ∧ t.room = s.room ∧ t.room = 0) := by
  obtain ⟨hcurrent, hstep⟩ := Transition.restrict_eq_some.mp hstep
  have hsound := h.sound.step hstep
  have hcases := step_cases hstep
  obtain ⟨hdrainer, hdrained, -⟩ := hcases.drainer_done (.inr h.panicked)
  have hpanicked := hdrainer.trans h.panicked
  have hc := h.sound.counters
  have hroom := h.occupancy
  cases hcases with
  | log hlogger hpush =>
    cases hpush with
    | loadTail hpc =>
      exact ⟨⟨hsound, hpanicked, by rintro value ⟨⟩⟩, rfl, .inl ⟨by simp [logged], rfl⟩⟩
    | @full value tail head place hpc hseen hread hfull =>
      obtain rfl : place = s.ring.inner.head.count := hcurrent
      obtain ⟨hplace, rfl⟩ := hc.heads.read_eq_some hread
      have hok := hc.producer_ok
      rw [hpc] at hok
      have htail : tail = BitVec.ofNat w s.ring.inner.tail.count := hok
      rw [htail, hc.full_iff hseen hplace] at hfull
      have hzero : s.room = 0 := by
        rw [State.room, hroom]
        omega
      exact ⟨⟨hsound, hpanicked, fun _ _ => hzero⟩, rfl, .inl ⟨by simp [logged], rfl⟩⟩
    | vacant hpc =>
      exact ⟨⟨hsound, hpanicked, by rintro value ⟨⟩⟩, rfl, .inl ⟨by simp [logged], rfl⟩⟩
    | @returnErr value hpc =>
      have hzero := h.full value hpc
      exact ⟨⟨hsound, hpanicked, by rintro value ⟨⟩⟩, rfl,
        .inr (.inr ⟨value, by simp [logged, hpc], rfl, hzero⟩)⟩
    | write hpc =>
      exact ⟨⟨hsound, hpanicked, by rintro value ⟨⟩⟩, rfl, .inl ⟨by simp [logged], rfl⟩⟩
    | @storeTail value tail hpc =>
      have hok := hc.producer_ok
      rw [hpc] at hok
      have hlt := hok.2
      have hseen := hc.seenHead_le
      have hle := hc.head_le_tail
      refine ⟨⟨hsound, hpanicked, by rintro value ⟨⟩⟩, rfl,
        .inr (.inl ⟨value, by simp [logged, hpc], ?_⟩)⟩
      rw [State.room, hroom, State.room]
      simp only [List.length_append, List.length_singleton, hc.accepted_length, hc.popped_length,
        Ring.Inner.storeTail_capacity]
      omega
  | storeShutdown hlogger hidle =>
    exact ⟨⟨hsound, hpanicked, h.full⟩, rfl, .inl ⟨rfl, rfl⟩⟩
  | join hlogger hdone => exact ⟨⟨hsound, hpanicked, h.full⟩, rfl, .inl ⟨rfl, rfl⟩⟩
  | _ => simp_all [h.panicked]

end Alone

theorem Answered.refl (s : State w α) : Answered s s := by
  refine ⟨[], 0, by simp, ?_, le_rfl, nofun⟩
  rw [Nat.sub_self]
  rfl

theorem Answered.step {k : ℕ} {s t u : State w α} {a : Act α} (h : Answered s t)
    (ht : Alone k t) (hstep : stepCurrent (some k) t a = some u) : Answered s u := by
  obtain ⟨answers, n, hresults, hflags, hle, hfull⟩ := h
  obtain ⟨-, -, ⟨hsame, hroom⟩ | ⟨value, htrue, hroom⟩ | ⟨value, hfalse, hroom, hzero⟩⟩ :=
    ht.answers hstep
  · exact ⟨answers, n, hsame.trans hresults, by rw [hroom]; exact hflags, by omega,
      fun hn => hroom.trans (hfull hn)⟩
  · -- there was room, so nothing has been refused
    obtain rfl : n = 0 := by
      by_contra hn
      have := hfull (Nat.pos_of_ne_zero hn)
      omega
    refine ⟨answers ++ [(value, true)], 0, by rw [htrue, hresults, List.append_assoc], ?_,
      by omega, nofun⟩
    have hsub : s.room - u.room = s.room - t.room + 1 := by omega
    rw [List.map_append, hflags, hsub, List.replicate_succ']
    simp
  · refine ⟨answers ++ [(value, false)], n + 1, by rw [hfalse, hresults, List.append_assoc], ?_,
      by omega, fun _ => hzero⟩
    rw [List.map_append, hflags, hroom, List.replicate_succ', List.append_assoc]
    rfl

/-- **Run.** What a run on current loads behind the panic has answered. -/
theorem Alone.run {k : ℕ} {s t : State w α} {as : List (Act α)} (h : Alone k s)
    (hrun : Transition.run (stepCurrent (some k)) s as = some t) :
    Alone k t ∧ t.drained = s.drained ∧ Answered s t := by
  refine Transition.run_invariant
    (I := fun u => Alone k u ∧ u.drained = s.drained ∧ Answered s u) ?_ hrun ⟨h, rfl, .refl s⟩
  rintro u a v - ⟨hu, hdrained, hanswered⟩ hstep
  obtain ⟨hv, hsame, -⟩ := hu.answers hstep
  exact ⟨hv, hsame.trans hdrained, hanswered.step hu hstep⟩

/-- The answers, counted. -/
theorem Answered.flags {s t : State w α} (h : Answered s t) :
    ∃ answers, t.results = s.results ++ answers ∧
      answers.map Prod.snd = List.replicate (min answers.length s.room) true ++
        List.replicate (answers.length - s.room) false := by
  obtain ⟨answers, n, hresults, hflags, hle, hfull⟩ := h
  have hlen := congrArg List.length hflags
  rw [List.length_map, List.length_append, List.length_replicate, List.length_replicate] at hlen
  refine ⟨answers, hresults, ?_⟩
  rcases Nat.eq_zero_or_pos n with rfl | hn
  · rw [hflags, show min answers.length s.room = s.room - t.room by omega,
      show answers.length - s.room = 0 by omega]
  · have hzero := hfull hn
    rw [hflags, show min answers.length s.room = s.room - t.room by omega,
      show answers.length - s.room = n by omega]

-- ════════════════════════════════════════════════════════════════════════
-- The whole life of a sink
-- ════════════════════════════════════════════════════════════════════════

/-- The loads of a step of the sink are current. -/
def OwnedCurrent (o : Owned w α) : OwnedAct α → Prop
  | .act a => Current o.sink a
  | .dropConsumer | .dropProducer => True

instance (o : Owned w α) (a : OwnedAct α) : Decidable (OwnedCurrent o a) :=
  match a with
  | .act a => inferInstanceAs (Decidable (Current o.sink a))
  | .dropConsumer | .dropProducer => isTrue trivial

def ownedCurrent (panicAt : Option ℕ) : Owned w α → OwnedAct α → Option (Owned w α) :=
  Transition.restrict OwnedCurrent (ownedStep panicAt)

/-- A run on current loads of the sink with its halves is one of the sink. -/
theorem run_sinkCurrent {panicAt : Option ℕ} {o o' : Owned w α} {as : List (OwnedAct α)}
    (hrun : Transition.run (ownedCurrent panicAt) o as = some o') :
    ∃ bs, Transition.run (stepCurrent panicAt) o.sink bs = some o'.sink := by
  have hproj : ∀ (o : Owned w α) a o', ownedCurrent panicAt o a = some o' →
      Transition.run (stepCurrent panicAt) o.sink (sinkActs o a) = some o'.sink := by
    intro o a o' hstep
    obtain ⟨hcurrent, hstep⟩ := Transition.restrict_eq_some.mp hstep
    obtain ⟨b, rfl, hb⟩ | ⟨hne, hsink⟩ := ownedStep_sink hstep
    · have hb' : stepCurrent panicAt o.sink b = some o'.sink :=
        Transition.restrict_eq_some.mpr ⟨hcurrent, hb⟩
      exact Transition.run_cons_eq_some.mpr ⟨_, hb', rfl⟩
    · rw [sinkActs_eq_nil hne, hsink]
      rfl
  exact ⟨_, Transition.run_project hproj hrun⟩

@[simp] def LoggerPc.joinsLeft : LoggerPc → ℕ
  | .joining => 1
  | .running | .dropped => 0

/-- What is left of the drop of the sink behind the store of the flag. -/
def Owned.leaving (o : Owned w α) : ℕ :=
  o.sink.logger.joinsLeft + o.consumerAlive.toNat + o.producerAlive.toNat

/-- A sink that is being dropped, its drainer done. -/
structure Owned.Leaving (o : Owned w α) : Prop extends Owned.Ordered o where
  stopped : o.sink.logger ≠ .running
  done : o.sink.drainer = .exited ∨ o.sink.drainer = .panicked

namespace Owned.Leaving

variable {panicAt : Option ℕ} {o o' : Owned w α}

/-- Each step of the drop is one of at most three. -/
theorem step {a : OwnedAct α} (h : o.Leaving) (hstep : ownedStep panicAt o a = some o') :
    o'.Leaving ∧ o.leaving = o'.leaving + 1 := by
  have hordered := h.toOrdered.step hstep
  have hstopped := h.stopped
  have hdone := h.done
  cases ownedStep_cases hstep with
  | act hjoin hact =>
    refine ⟨⟨hordered, ?_, ?_⟩, ?_⟩
    · cases hact with
      | log hlogger hpush => exact absurd hlogger hstopped
      | storeShutdown => nofun
      | join => nofun
      | _ => exact hstopped
    · rw [(hact.drainer_done hdone).1]
      exact hdone
    · cases hact with
      | join hlogger hdone =>
        simp only [Owned.leaving, hlogger, LoggerPc.joinsLeft]
        omega
      | _ => simp_all
  | dropConsumer halive hdone =>
    refine ⟨⟨hordered, hstopped, hdone⟩, ?_⟩
    simp only [Owned.leaving, Owned.release, halive, Bool.toNat_true, Bool.toNat_false]
    omega
  | dropProducer halive hdropped =>
    exact ⟨⟨hordered, hstopped, hdone⟩, by simp [Owned.leaving, Owned.release, halive]⟩

/-- The drop always has a next step until the sink is gone. -/
theorem progress (h : o.Leaving) :
    (∃ a o', ownedStep panicAt o a = some o') ∨
      o.sink.logger = .dropped ∧ o.producerAlive = false := by
  cases hconsumer : o.consumerAlive with
  | true =>
    refine .inl ⟨.dropConsumer, Owned.release { o with consumerAlive := false }, ?_⟩
    rcases h.done with hdone | hdone <;> simp [ownedStep, hconsumer, hdone]
  | false =>
    cases hlogger : o.sink.logger with
    | running => exact absurd hlogger h.stopped
    | joining =>
      refine .inl ⟨.act .join, { o with sink := { o.sink with logger := .dropped } }, ?_⟩
      rcases h.done with hdone | hdone <;>
        simp [ownedStep, LogSink.step, hconsumer, hlogger, hdone]
    | dropped =>
      cases hproducer : o.producerAlive with
      | true =>
        refine .inl ⟨.dropProducer, Owned.release { o with producerAlive := false }, ?_⟩
        simp [ownedStep, hproducer, hlogger]
      | false => exact .inr ⟨rfl, rfl⟩

theorem leaving_le (o : Owned w α) : o.leaving ≤ 3 := by
  have hconsumer := o.consumerAlive.toNat_le
  have hproducer := o.producerAlive.toNat_le
  have hlogger : o.sink.logger.joinsLeft ≤ 1 := by cases o.sink.logger <;> simp
  rw [Owned.leaving]
  omega

/-- The drop of a sink takes at most three steps behind the store of the flag, and nothing
keeps it from its end. -/
theorem run {as : List (OwnedAct α)} (h : o.Leaving)
    (hrun : Transition.run (ownedStep panicAt) o as = some o') :
    as.length ≤ 3 ∧ ((∃ a o'', ownedStep panicAt o' a = some o'') ∨
      o'.sink.logger = .dropped ∧ o'.producerAlive = false) := by
  have hpaid := Transition.run_account (p := fun _ => true)
    (fun _ _ _ (h : Owned.Leaving _) hstep => (h.step hstep).1)
    (fun _ _ _ h hstep => (h.step hstep).2) hrun h
  rw [List.countP_true] at hpaid
  have hle := leaving_le o
  have hend := Transition.run_invariant (I := Owned.Leaving)
    (fun _ _ _ _ h hstep => (h.step hstep).1) hrun h
  exact ⟨by omega, hend.progress⟩

end Owned.Leaving

/-- Every event offered is refused, accepted or still with the logging thread. -/
theorem ledger_of_reaches {panicAt : Option ℕ} {inner : Ring.Inner w α} {s : State w α}
    (hreach : Transition.Reaches (step panicAt) (.start inner) s) : Ledger s.ring := by
  refine hreach.invariant (I := fun u => Ledger u.ring) ?_ ?_
  · intro u a v hu hstep
    rcases (step_cases hstep).ring_cases with heq | ⟨b, hb⟩ | ⟨place, heq⟩
    · rwa [heq]
    · exact hu.step hb
    · rwa [heq]
  · exact List.Perm.nil

/-- A drainer that has panicked calls `drain_one` no more. -/
theorem panicked_of_reaches {panicAt : Option ℕ} {s t : State w α}
    (hreach : Transition.Reaches (step panicAt) s t) (hpanic : s.drainer = .panicked) :
    t.drainer = .panicked ∧ t.drained = s.drained := by
  refine hreach.invariant
    (I := fun u => u.drainer = .panicked ∧ u.drained = s.drained) ?_ ⟨hpanic, rfl⟩
  rintro u a v ⟨hu, hdrained⟩ hstep
  obtain ⟨hdrainer, hsame, -⟩ := (step_cases hstep).drainer_done (.inr hu)
  exact ⟨hdrainer.trans hu, hsame.trans hdrained⟩

/-- What a panic in call `k` of `drain_one` makes of a sink, in a state `o` behind a state `p`
of a drainer that has panicked. -/
structure Contained (capacity : BitVec w) (k : ℕ) (p o : Owned w α) : Prop where
  accepted : (o.sink.results.filter Prod.snd).map Prod.fst = o.sink.ring.accepted
  /-- `drain_one` was called on the first `k` events, and is not called again. -/
  drained : o.sink.drained = o.sink.ring.accepted.take k
  calls : o.sink.drained.length = k ∧ o.sink.drained = p.sink.drained
  accepted_le : o.sink.ring.accepted.length ≤ k + capacity.toNat
  /-- `log` returns true as long as there is room, and false from then on; a call that had
  found the ring full before is over first. -/
  answers : (∀ value, p.sink.ring.producer ≠ .full value) →
    ∃ answers, o.sink.results = p.sink.results ++ answers ∧
      answers.map Prod.snd = List.replicate (min answers.length p.sink.room) true ++
        List.replicate (answers.length - p.sink.room) false
  /-- `LogSink::drop` can be called between two calls of `log`, and returns. -/
  begins : o.sink.logger = .running → o.sink.ring.producer = .idle →
    ∃ o', ownedStep (some k) o (.act .storeShutdown) = some o'
  returns : o.sink.logger ≠ .running → ∀ as o',
    Transition.run (ownedStep (some k)) o as = some o' → as.length ≤ 3 ∧
      ((∃ a o'', ownedStep (some k) o' a = some o'') ∨
        o'.sink.logger = .dropped ∧ o'.producerAlive = false)
  /-- The events behind the first `k` stay until the producer goes, and go once with it. -/
  shared : o.producerAlive = true → o.fate = .shared
  destroyed : o.producerAlive = false → ∃ dropped, o.fate = .freed dropped ∧
    dropped.map Prod.snd = o.sink.ring.accepted.drop k ∧
    DroppedOnce capacity o.sink.ring dropped

/-- **A panic of `drain_one` is contained.** It is called on the first `k` events and on no
other; the logging side goes on until the ring is full, drops without a panic, and the events
left are destroyed once, with its producer. -/
theorem panic_contained {capacity : BitVec w} {k : ℕ} {s₀ : State w α}
    (hnew : new capacity = .ok s₀) {p o : Owned w α} {as : List (OwnedAct α)}
    (hreach : Transition.Reaches (ownedStep (some k)) (.start s₀) p)
    (hpanic : p.sink.drainer = .panicked)
    (hrun : Transition.run (ownedCurrent (some k)) p as = some o)
    (hno : capacity.toNat ∣ 2 ^ w ∨ o.sink.ring.accepted.length < 2 ^ w) :
    Contained capacity k p o := by
  obtain ⟨inner, hch, rfl⟩ := new_eq_ok hnew
  have hfrom : Transition.Reaches (ownedStep (some k)) p o := ⟨as, Transition.run_of_restrict hrun⟩
  have hto := hreach.trans hfrom
  have hsink := reaches_sink hto
  have hcap : o.sink.ring.inner.capacity = capacity :=
    (capacity_of_reaches hsink).trans (Ring.channel_eq_ok hch).2.1
  have hno' : NoCollision o.sink.ring := by rwa [NoCollision, hcap]
  obtain ⟨hsound, hslots⟩ := sound_of_reaches hch hsink hno'
  have hordered := (Owned.Ordered.start (State.start inner) (by rintro ⟨⟩)).reaches hto
  obtain ⟨hpanicked, hsame⟩ := panicked_of_reaches (reaches_sink hfrom) hpanic
  have hlength : o.sink.drained.length = k := (Option.some.inj (hsound.panicked hpanicked)).symm
  have hpopped : o.sink.drained = o.sink.ring.popped := by
    have := hsound.popped
    rw [hpanicked] at this
    simpa [DrainerPc.inHand] using this
  have hc := hsound.counters
  have hprefix : o.sink.ring.popped = o.sink.ring.accepted.take k := by
    have htake := congrArg (List.take k) (hslots.live_eq hc)
    rw [← hlength, hpopped, List.take_left' (List.length_map _), ← List.map_take] at htake
    rw [← hlength, hpopped]
    exact List.map_injective_iff.mpr (Option.some_injective α) htake
  have hpush : o.sink.logger ≠ .running → o.sink.ring.producer = .idle := hsound.producer_idle
  have hpop : o.sink.ring.consumer = .idle := hsound.consumer_idle (by simp [hpanicked])
  exact {
    accepted := hsound.results_true
    drained := hpopped.trans hprefix
    calls := ⟨hlength, hsame⟩
    accepted_le := by
      have hocc := hc.occupancy_le
      rw [hc.accepted_length, ← hlength, hpopped, hc.popped_length, ← hcap]
      omega
    answers := by
      intro hfull
      obtain ⟨bs, hbs⟩ := run_sinkCurrent hrun
      have hp : Sound (some k) p.sink := (Sound.of_new hnew).reaches (reaches_sink hreach)
      have halone : Alone k p.sink := ⟨hp, hpanic, fun value h => absurd h (hfull value)⟩
      exact (halone.run hbs).2.2.flags
    begins := by
      intro hlogger hidle
      simp [ownedStep, Act.isJoin, step, hlogger, hidle]
    returns := by
      intro hlogger as' o' hrun'
      exact Owned.Leaving.run ⟨hordered, hlogger, .inr hpanicked⟩ hrun'
    shared := hordered.shared
    destroyed := by
      intro hgone
      have hlogger : o.sink.logger ≠ .running := by simp [hordered.producer_gone hgone]
      obtain ⟨dropped, hdrop, honce⟩ := Ring.dropInner_of_idle hc hslots hno'
        (ledger_of_reaches hsink) (hpush hlogger) hpop
      refine ⟨dropped, by rw [hordered.freed hgone, hdrop], ?_, hcap ▸ honce⟩
      rw [← honce.fifo, hprefix, List.drop_left']
      rw [List.length_take, ← hlength, hpopped, hc.popped_length, hc.accepted_length]
      exact min_eq_left hc.head_le_tail }

/-- The first call of `drain_one` panics with one more event queued; one more is accepted and
the next one refused, and the two that are left go with the producer. -/
theorem panic_contained_with_two_left :
    ∃ s₀ : State 2 ℕ, new 2#2 = .ok s₀ ∧ ∃ p o,
      Transition.run (ownedStep (some 1)) (.start s₀)
        [.act (.log (.loadTail 7)), .act (.log (.loadHead 0)), .act (.log .write),
          .act (.log .storeTail), .act (.tryPop .loadHead), .act (.tryPop (.loadTail 1)),
          .act (.tryPop .read), .act (.tryPop .storeHead), .act .drainOne,
          .act (.log (.loadTail 8)), .act (.log (.loadHead 1)), .act (.log .write),
          .act (.log .storeTail), .act .drainOneReturns] = some p ∧
      p.sink.drainer = .panicked ∧
      Transition.run (ownedCurrent (some 1)) p
        [.act (.log (.loadTail 9)), .act (.log (.loadHead 1)), .act (.log .write),
          .act (.log .storeTail), .dropConsumer, .act (.log (.loadTail 10)),
          .act (.log (.loadHead 1)), .act (.log .returnErr), .act .storeShutdown, .act .join,
          .dropProducer] = some o ∧
      o.sink.results = [(7, true), (8, true), (9, true), (10, false)] ∧
      o.sink.drained = [7] ∧ o.producerAlive = false ∧ Contained 2#2 1 p o := by
  refine ⟨_, rfl, ?p, ?o, ?hp, ?hpanic, ?ho, ?_, ?_, ?_,
    panic_contained (by rfl : new 2#2 = _) (.of_run ?hp) ?hpanic ?ho (.inl (by decide))⟩
  case hp => rfl
  case ho => rfl
  all_goals rfl

end LogSink
