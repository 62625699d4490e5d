import TympanLadspa.Realtime.LogFlush
import TympanLadspa.Realtime.RingFits
import TympanLadspa.Realtime.RingSequential

/-!
# The drainer behind the shutdown flag

Once `LogSink::drop` has stored the flag nothing is pushed any more, and `join` waits for
the drainer. On current loads the drainer takes `remaining` steps to its `break`: six for
each event left, and those from its place in `drainer_loop` on. It gets there exactly when
no push has hit the slot of a live event.
-/

namespace LogSink

open Ring (PopPc PushStep PopStep Counters Slots Kept Lost NoCollision)

variable {w : ℕ} {α : Type*}

/-- The pushes of the logging thread hit empty slots. -/
def Fits (s : State w α) : Act α → Prop
  | .log a => Ring.Fits s.ring a
  | _ => True

namespace Act

@[simp] def ofDrainer : Act α → Bool
  | tryPop _ | drainOne | drainOneReturns | loadShutdown _ | sleep => true
  | log _ | storeShutdown | join => false

@[simp] def isLoadShutdown : Act α → Bool
  | loadShutdown _ => true
  | _ => false

@[simp] def isSleep : Act α → Bool
  | sleep => true
  | _ => false

/-- The store that ends a pop. -/
@[simp] def isPop : Act α → Bool
  | tryPop .storeHead => true
  | _ => false

end Act

-- ════════════════════════════════════════════════════════════════════════
-- What is left to do
-- ════════════════════════════════════════════════════════════════════════

/-- The steps of `try_pop` that are left when it finds nothing; one with an event in its hands
has none, since its steps count for the event. -/
@[simp] def popRank : PopPc w α → ℕ
  | .idle => 3
  | .loadedHead _ => 2
  | .empty | .ready _ => 1
  | .taken _ _ | .uninit => 0

/-- The steps behind a pass: the load of the flag and an empty pass, or none. -/
@[simp] def Pass.rank : Pass → ℕ
  | .poll _ => 4
  | .last => 0

/-- The steps to the `break` of `drainer_loop`, apart from those for the events left. -/
@[simp] def DrainerPc.rank (consumer : PopPc w α) : DrainerPc α → ℕ
  | .popping pass => popRank consumer + pass.rank
  | .received pass _ => 5 + pass.rank
  | .draining pass => 4 + pass.rank
  | .checking _ => 4
  | .sleeping => 8
  | .exited | .panicked => 0

/-- The loads of the flag that are left. -/
@[simp] def DrainerPc.loadsLeft : DrainerPc α → ℕ
  | .popping pass | .received pass _ | .draining pass =>
    match pass with
    | .poll _ => 1
    | .last => 0
  | .checking _ | .sleeping => 1
  | .exited | .panicked => 0

/-- The sleeps that are left. -/
@[simp] def DrainerPc.sleepsLeft : DrainerPc α → ℕ
  | .sleeping => 1
  | _ => 0

/-- The events between `head` and `tail`. -/
def State.unpopped (s : State w α) : ℕ := s.ring.inner.tail.count - s.ring.inner.head.count

/-- The steps of the drainer to its `break`. -/
def State.remaining (s : State w α) : ℕ := 6 * s.unpopped + s.drainer.rank s.ring.consumer

/-- What a step takes off what is left to do. -/
structure Pays (s : State w α) (a : Act α) (t : State w α) : Prop where
  steps : s.remaining = t.remaining + if a.ofDrainer then 1 else 0
  loads : s.drainer.loadsLeft = t.drainer.loadsLeft + if a.isLoadShutdown then 1 else 0
  sleeps : s.drainer.sleepsLeft = t.drainer.sleepsLeft + if a.isSleep then 1 else 0
  pops : s.unpopped = t.unpopped + if a.isPop then 1 else 0

namespace Step

variable {panicAt : Option ℕ} {s t : State w α} {a : Act α}

/-- Pushes into empty slots keep the events apart. -/
theorem kept (h : Step panicAt s a t) (hc : Counters s.ring) (hk : Kept s.ring)
    (hfits : Fits s a) : Kept t.ring := by
  cases h with
  | log hlogger hpush => exact hk.pushStep hc hfits hpush
  | tryPop hpc hpop => exact hk.popStep hc hpop
  | seesShutdown => exact ⟨⟨hk.holds, hk.initialised⟩, hk.spread⟩
  | seesRunning => exact ⟨⟨hk.holds, hk.initialised⟩, hk.spread⟩
  | _ => exact hk

/-- The drainer has seen of the flag what has been stored to it. -/
theorem seen (h : Step panicAt s a t) (hseen : s.seenShutdown ≤ s.shutdown.count) :
    t.seenShutdown ≤ t.shutdown.count := by
  cases h with
  | storeShutdown hlogger hidle =>
    rw [Location.count_store]
    exact Nat.le_succ_of_le hseen
  | seesShutdown hpc hle hread => exact Location.le_count_of_read hread
  | seesRunning hpc hle hread => exact Location.le_count_of_read hread
  | _ => exact hseen

/-- A sink that is being dropped does not run again. -/
theorem stopped (h : Step panicAt s a t) (hlogger : s.logger ≠ .running) :
    t.logger ≠ .running := by
  cases h with
  | log hrunning hpush => exact absurd hrunning hlogger
  | storeShutdown => nofun
  | join => nofun
  | _ => exact hlogger

end Step

/-- A sink whose flag is set, with every event in a slot of its own. -/
structure Stopped (s : State w α) : Prop where
  sound : Sound none s
  kept : Kept s.ring
  seen : s.seenShutdown ≤ s.shutdown.count
  stopped : s.logger ≠ .running

namespace Stopped

variable {s t : State w α}

/-- Behind the store every current load of the flag returns true. -/
theorem read_current (h : Stopped s) :
    s.shutdown.read s.shutdown.count = some (true, s.ring.inner.tail.count) := by
  rw [h.sound.shutdown]
  cases hlogger : s.logger with
  | running => exact absurd hlogger h.stopped
  | joining => rfl
  | dropped => rfl

theorem pays_tryPop {pass : Pass} {a : Ring.PopAct} {ring : Ring.State w α} (h : Stopped s)
    (hpc : s.drainer = .popping pass) (hpop : PopStep s.ring a ring) :
    Pays s (.tryPop a) { s with ring := ring, drainer := afterPop pass s.ring.consumer a } := by
  cases hpop with
  | uninit hready hcell =>
    obtain ⟨value, hvalue⟩ := h.kept.readable h.sound.counters hready
    exact absurd hvalue (hcell value)
  | @storeHead value head htaken =>
    -- the event paid for by its six steps leaves the ring
    have hok := h.sound.counters.consumer_ok
    rw [htaken] at hok
    have hlt := hok.2.trans_le h.sound.counters.seenTail_le
    constructor <;> cases pass <;>
      simp [State.remaining, State.unpopped, afterPop, hpc, htaken] <;> omega
  | _ =>
    constructor <;> cases pass <;> simp [State.remaining, State.unpopped, afterPop, *]

/-- **Step.** Each step of the drainer pays for itself, whatever the schedule. -/
theorem pays {a : Act α} (h : Stopped s) (hstep : stepCurrent none s a = some t) :
    Pays s a t := by
  obtain ⟨hcurrent, hstep⟩ := Transition.restrict_eq_some.mp hstep
  have hidle := h.sound.consumer_idle
  cases step_cases hstep with
  | log hlogger hpush => exact absurd hlogger h.stopped
  | storeShutdown hlogger hidle => exact absurd hlogger h.stopped
  | join hlogger hdone => exact ⟨rfl, rfl, rfl, rfl⟩
  | tryPop hpc hpop => exact h.pays_tryPop hpc hpop
  | @drainOne pass event hpc =>
    constructor <;> cases pass <;> simp [State.remaining, State.unpopped, hpc]
  | panic hpc hpanic => cases hpanic
  | @drainOneReturns pass hpc =>
    have hconsumer := hidle (by simp [hpc])
    constructor <;> cases pass <;>
      simp [State.remaining, State.unpopped, Pass.next, hpc, hconsumer]
  | seesShutdown hpc =>
    have hconsumer := hidle (by simp [hpc])
    constructor <;> simp [State.remaining, State.unpopped, observeTail, hpc, hconsumer]
  | seesRunning hpc hseen hread =>
    rw [show _ = s.shutdown.count from hcurrent, h.read_current] at hread
    cases hread
  | sleep hpc =>
    have hconsumer := hidle (by simp [hpc])
    constructor <;> simp [State.remaining, State.unpopped, hpc, hconsumer]

theorem step {a : Act α} (h : Stopped s) (hstep : stepCurrent none s a = some t) :
    Stopped t := by
  obtain ⟨-, hstep⟩ := Transition.restrict_eq_some.mp hstep
  have hcases := step_cases hstep
  refine ⟨h.sound.step hstep, ?_, hcases.seen h.seen, hcases.stopped h.stopped⟩
  refine hcases.kept h.sound.counters h.kept ?_
  cases hcases with
  | log hlogger hpush => exact absurd hlogger h.stopped
  | _ => trivial

theorem run {as : List (Act α)} (h : Stopped s)
    (hrun : Transition.run (stepCurrent none) s as = some t) : Stopped t :=
  Transition.run_invariant (fun _ _ _ _ h hstep => h.step hstep) hrun h

/-- A step of the drainer that is there on current loads. -/
private theorem of_step {a : Act α} (ha : a.ofDrainer = true) (hcurrent : Current s a)
    (hstep : (LogSink.step none s a).isSome) :
    ∃ a t, Act.ofDrainer a = true ∧ stepCurrent none s a = some t := by
  obtain ⟨t, ht⟩ := Option.isSome_iff_exists.mp hstep
  exact ⟨a, t, ha, Transition.restrict_eq_some.mpr ⟨hcurrent, ht⟩⟩

private theorem of_popStep {pass : Pass} (hpc : s.drainer = .popping pass) {a : Ring.PopAct}
    {ring : Ring.State w α} (hpop : PopStep s.ring a ring) (hcurrent : Current s (.tryPop a)) :
    ∃ a t, Act.ofDrainer a = true ∧ stepCurrent none s a = some t := by
  refine of_step (a := .tryPop a) rfl hcurrent ?_
  simp [LogSink.step, hpc, Ring.popStep_eq_some_iff.mpr hpop]

/-- Until its `break` the drainer has a step to take. -/
theorem progress (h : Stopped s) :
    s.drainer = .exited ∨ ∃ a t, a.ofDrainer = true ∧ stepCurrent none s a = some t := by
  cases hpc : s.drainer with
  | exited => exact .inl rfl
  | panicked => cases h.sound.panicked hpc
  | popping pass =>
    refine .inr ?_
    cases hconsumer : s.ring.consumer with
    | idle => exact of_popStep hpc (.loadHead hconsumer) trivial
    | loadedHead head =>
      have htail := s.ring.inner.tail.read_count
      have hseen := h.sound.counters.seenTail_le
      rcases eq_or_ne head s.ring.inner.tail.last with rfl | hne
      · exact of_popStep hpc (.empty hconsumer hseen htail) rfl
      · exact of_popStep hpc (.ready hconsumer hseen htail hne) rfl
    | empty => exact of_popStep hpc (.returnNone hconsumer) trivial
    | ready head =>
      obtain ⟨value, hvalue⟩ := h.kept.readable h.sound.counters hconsumer
      exact of_popStep hpc (.read hconsumer hvalue) trivial
    | taken value head => exact of_popStep hpc (.storeHead hconsumer) trivial
    | uninit => exact absurd hconsumer h.kept.initialised
  | received pass event =>
    refine .inr (of_step (a := .drainOne) rfl trivial ?_)
    simp [LogSink.step, hpc]
  | draining pass =>
    refine .inr (of_step (a := .drainOneReturns) rfl trivial ?_)
    simp [LogSink.step, hpc]
  | checking drained =>
    refine .inr (of_step (a := .loadShutdown s.shutdown.count) rfl rfl ?_)
    simp [LogSink.step, hpc, h.seen, h.read_current]
  | sleeping =>
    refine .inr (of_step (a := .sleep) rfl trivial ?_)
    simp [LogSink.step, hpc]

/-- Nothing is pushed behind the flag. -/
theorem accepted_run {as : List (Act α)} (h : Stopped s)
    (hrun : Transition.run (stepCurrent none) s as = some t) :
    t.ring.accepted = s.ring.accepted := by
  refine (Transition.run_invariant
    (I := fun u => Stopped u ∧ u.ring.accepted = s.ring.accepted) ?_ hrun ⟨h, rfl⟩).2
  rintro u a v - ⟨hu, haccepted⟩ hstep
  refine ⟨hu.step hstep, ?_⟩
  obtain ⟨-, hstep⟩ := Transition.restrict_eq_some.mp hstep
  cases step_cases hstep with
  | log hlogger hpush => exact absurd hlogger hu.stopped
  | tryPop hpc hpop => exact hpop.frame.2.1.trans haccepted
  | _ => exact haccepted

/-- **Run.** A run pays for the steps, loads, sleeps and pops it has taken. -/
theorem pays_run {as : List (Act α)} (h : Stopped s)
    (hrun : Transition.run (stepCurrent none) s as = some t) :
    s.remaining = t.remaining + as.countP Act.ofDrainer ∧
      s.drainer.loadsLeft = t.drainer.loadsLeft + as.countP Act.isLoadShutdown ∧
      s.drainer.sleepsLeft = t.drainer.sleepsLeft + as.countP Act.isSleep ∧
      s.unpopped = t.unpopped + as.countP Act.isPop := by
  have hkeep : ∀ (s : State w α) a t, Stopped s → stepCurrent none s a = some t → Stopped t :=
    fun _ _ _ h hstep => h.step hstep
  exact ⟨Transition.run_account hkeep (fun _ _ _ h hstep => (h.pays hstep).steps) hrun h,
    Transition.run_account (f := fun s => s.drainer.loadsLeft) hkeep
      (fun _ _ _ h hstep => (h.pays hstep).loads) hrun h,
    Transition.run_account (f := fun s => s.drainer.sleepsLeft) hkeep
      (fun _ _ _ h hstep => (h.pays hstep).sleeps) hrun h,
    Transition.run_account hkeep (fun _ _ _ h hstep => (h.pays hstep).pops) hrun h⟩

/-- Live are the events not yet popped. -/
theorem live_length (h : Stopped s) : s.ring.live.length = s.unpopped := by
  have hc := h.sound.counters
  have hlen := congrArg List.length (h.kept.live_eq hc)
  simp only [List.length_append, List.length_map, hc.popped_length, hc.accepted_length] at hlen
  rw [State.unpopped]
  omega

end Stopped

/-- Before the store the drainer has its load of the flag before it. -/
theorem loadsLeft_of_not_inLast {d : DrainerPc α} (h : ¬ d.InLast) (hpanic : d ≠ .panicked) :
    d.loadsLeft = 1 := by
  cases d with
  | popping pass | received pass event | draining pass =>
    cases pass with
    | poll drained => rfl
    | last => exact absurd rfl h
  | checking drained => rfl
  | sleeping => rfl
  | exited => exact absurd trivial h
  | panicked => exact absurd rfl hpanic

theorem sleepsLeft_le (d : DrainerPc α) : d.sleepsLeft ≤ 1 := by
  cases d <;> simp

/-- What the drainer has done on its way from `s` to its `break` in `t`. -/
structure Ended (s : State w α) (as : List (Act α)) (t : State w α) : Prop where
  loads : as.countP Act.isLoadShutdown = 1
  sleeps : as.countP Act.isSleep ≤ 1
  /-- It has popped the events live in `s`. -/
  popped : t.ring.popped.map some = s.ring.popped.map some ++ s.ring.live
  pops : as.countP Act.isPop = s.ring.live.length
  pops_le : as.countP Act.isPop ≤ s.ring.inner.capacity.toNat
  /-- It has drained them, behind the event it had in its hands. -/
  drained : t.drained.map some = (s.drained ++ s.drainer.inHand).map some ++ s.ring.live
  empty : t.ring.inner.head.last = t.ring.inner.tail.last

/-- On current loads `drainer_loop` gets from `s` to its `break`, in a bounded number of steps
and without being blocked. -/
structure Terminates (s : State w α) : Prop where
  progress : ∀ as t, Transition.run (stepCurrent none) s as = some t →
    t.drainer = .exited ∨ ∃ a u, a.ofDrainer = true ∧ stepCurrent none t a = some u
  bounded : ∀ as t, Transition.run (stepCurrent none) s as = some t →
    as.countP Act.ofDrainer ≤ s.remaining
  ended : ∀ as t, Transition.run (stepCurrent none) s as = some t → t.drainer = .exited →
    Ended s as t

theorem Stopped.ended {s t : State w α} {as : List (Act α)} (h : Stopped s)
    (hlast : ¬ s.drainer.InLast) (hrun : Transition.run (stepCurrent none) s as = some t)
    (hexit : t.drainer = .exited) : Ended s as t := by
  have ht := h.run hrun
  have hc := ht.sound.counters
  obtain ⟨-, hloads, hsleeps, hpops⟩ := h.pays_run hrun
  have hmeet := ht.sound.exited hexit
  have hzero : t.unpopped = 0 := by
    rw [State.unpopped, hmeet, Nat.sub_self]
  have hall : t.ring.popped.map some = s.ring.popped.map some ++ s.ring.live := by
    rw [h.kept.live_eq h.sound.counters, popped_eq_accepted ht.kept.toSlots hc hmeet,
      h.accepted_run hrun]
  have hpopped : as.countP Act.isPop = s.ring.live.length := by
    rw [h.live_length]
    omega
  have hdrained : t.drained = t.ring.popped := by
    have := ht.sound.popped
    rw [hexit] at this
    simpa [DrainerPc.inHand] using this
  have hpanic : s.drainer ≠ .panicked := by
    intro hp
    cases h.sound.panicked hp
  rw [loadsLeft_of_not_inLast hlast hpanic, hexit] at hloads
  have hone := sleepsLeft_le s.drainer
  exact {
    loads := by simpa using hloads.symm
    sleeps := by omega
    popped := hall
    pops := hpopped
    pops_le := hpopped ▸ h.kept.live_length h.sound.counters
    drained := by rw [hdrained, hall, h.sound.popped]
    empty := by rw [hc.heads.last_eq, hc.tails.last_eq, hmeet] }

theorem Stopped.terminates {s : State w α} (h : Stopped s) (hlast : ¬ s.drainer.InLast) :
    Terminates s where
  progress _ _ hrun := (h.run hrun).progress
  bounded as t hrun := by
    have := (h.pays_run hrun).1
    omega
  ended _ _ hrun hexit := h.ended hlast hrun hexit

-- ════════════════════════════════════════════════════════════════════════
-- Events in one slot
-- ════════════════════════════════════════════════════════════════════════

namespace Step

variable {panicAt : Option ℕ} {s t : State w α} {a : Act α} {n : ℕ}

/-- What the ring has lost it does not get back. -/
theorem lost (h : Step panicAt s a t) (hc : Counters s.ring) (hl : Lost n s.ring) :
    Lost n t.ring := by
  cases h with
  | log hlogger hpush => exact hl.pushStep hc hpush
  | tryPop hpc hpop => exact hl.popStep hc hpop
  | _ => exact hl

theorem lost_succ (h : Step panicAt s a t) (hc : Counters s.ring) (hl : Lost n s.ring)
    (hunfit : ¬ Fits s a) : Lost (n + 1) t.ring := by
  cases h with
  | log hlogger hpush => exact hl.succ_of_pushStep hc hunfit hpush
  | _ => exact absurd trivial hunfit

end Step

theorem lost_reaches {panicAt : Option ℕ} {s t : State w α} {n : ℕ}
    (hreach : Transition.Reaches (step panicAt) s t) (hs : Sound panicAt s)
    (hl : Lost n s.ring) : Lost n t.ring := by
  refine (hreach.invariant (I := fun u => Sound panicAt u ∧ Lost n u.ring) ?_ ⟨hs, hl⟩).2
  rintro u a v ⟨hu, hl⟩ hstep
  exact ⟨hu.step hstep, (step_cases hstep).lost hu.counters hl⟩

/-- A drainer that is never blocked and takes a bounded number of steps gets to its `break`. -/
theorem Terminates.reaches_exit {s : State w α} (h : Terminates s) :
    ∃ as t, Transition.run (stepCurrent none) s as = some t ∧ t.drainer = .exited := by
  by_contra hnever
  push Not at hnever
  have hlong : ∀ n, ∃ as t, Transition.run (stepCurrent none) s as = some t ∧
      as.countP Act.ofDrainer = n := by
    intro n
    induction n with
    | zero => exact ⟨[], s, rfl, rfl⟩
    | succ n ih =>
      obtain ⟨as, t, hrun, hcount⟩ := ih
      obtain ⟨a, u, ha, hstep⟩ := (h.progress as t hrun).resolve_left (hnever as t hrun)
      refine ⟨as ++ [a], u, Transition.run_concat_eq_some.mpr ⟨t, hrun, hstep⟩, ?_⟩
      rw [List.countP_append, hcount, List.countP_singleton, if_pos ha]
  obtain ⟨as, t, hrun, hcount⟩ := hlong (s.remaining + 1)
  have := h.bounded as t hrun
  omega

/-- An event that has lost its slot keeps the drainer from its `break`. -/
theorem not_terminates {s : State w α} (hs : Sound none s) (hlogger : s.logger ≠ .running)
    (hl : Lost 1 s.ring) : ¬ Terminates s := by
  intro hterm
  obtain ⟨as, t, hrun, hexit⟩ := hterm.reaches_exit
  have hreach : Transition.Reaches (step none) s t := ⟨as, Transition.run_of_restrict hrun⟩
  have ht := hs.reaches hreach
  have hstopped : t.logger ≠ .running :=
    hreach.invariant (I := fun u => u.logger ≠ .running)
      (fun _ _ _ h hstep => (step_cases hstep).stopped h) hlogger
  have hzero := (lost_reaches hreach hs hl).eq_zero (ht.producer_idle hstopped)
    (ht.consumer_idle (by simp [hexit])) (ht.exited hexit)
  cases hzero

section Store

variable {s₀ s : State w α} {capacity : BitVec w} {as : List (Act α)}

/-- The store of the flag by `LogSink::drop`. -/
theorem store_eq_some (hrun : Transition.run (step none) s₀ (as ++ [.storeShutdown]) = some s) :
    ∃ u, Transition.run (step none) s₀ as = some u ∧ u.logger = .running ∧
      u.ring.producer = .idle ∧
      s = { u with
        shutdown := u.shutdown.store (true, u.ring.inner.tail.count), logger := .joining } := by
  obtain ⟨u, hu, hstep⟩ := Transition.run_concat_eq_some.mp hrun
  cases step_cases hstep with
  | storeShutdown hlogger hidle => exact ⟨u, hu, hlogger, hidle, rfl⟩

/-- Pushes that fit leave the drainer able to get to its `break`. -/
theorem terminates_of_fits (hnew : new capacity = .ok s₀)
    (hrun : Transition.run (step none) s₀ (as ++ [.storeShutdown]) = some s)
    (hfits : Transition.EachStep (step none) (fun u a _ => Fits u a) s₀ as) : Terminates s := by
  obtain ⟨u, hu, hlogger, hidle, rfl⟩ := store_eq_some hrun
  obtain ⟨inner, hch, rfl⟩ := new_eq_ok hnew
  obtain ⟨hsound, hkept, hseen⟩ := hfits.invariant
    (I := fun v => Sound none v ∧ Kept v.ring ∧ v.seenShutdown ≤ v.shutdown.count)
    (by
      rintro v a x ⟨hv, hk, hseen⟩ hfit hstep
      have hcases := step_cases hstep
      exact ⟨hv.step hstep, hcases.kept hv.counters hk hfit, hcases.seen hseen⟩)
    hu ⟨.start (.of_channel hch), .of_channel hch, le_rfl⟩
  refine Stopped.terminates ⟨hsound.storeShutdown hlogger hidle, hkept, ?_, nofun⟩ ?_
  · rw [Location.count_store]
    exact Nat.le_succ_of_le hseen
  · exact fun hlast => (hsound.last hlast).1 hlogger

/-- A push that does not fit keeps the drainer from its `break`. -/
theorem fits_of_terminates (hnew : new capacity = .ok s₀)
    (hrun : Transition.run (step none) s₀ (as ++ [.storeShutdown]) = some s)
    (hterm : Terminates s) : Transition.EachStep (step none) (fun u a _ => Fits u a) s₀ as := by
  intro bs a cs u v has hbs hstep
  by_contra hunfit
  have hs₀ : Sound none s₀ := .of_new hnew
  have hu := hs₀.reaches ⟨bs, hbs⟩
  have hl : Lost 0 u.ring := by
    refine lost_reaches ⟨bs, hbs⟩ hs₀ ?_
    obtain ⟨inner, hch, rfl⟩ := new_eq_ok hnew
    obtain ⟨hbuf, hcap, -, -⟩ := Ring.channel_eq_ok hch
    exact Ring.lost_start inner (hcap ▸ hbuf)
  have hlost := (step_cases hstep).lost_succ hu.counters hl hunfit
  -- from there the run goes on to the store
  have hrest : Transition.Reaches (step none) v s := by
    rw [has, List.append_assoc, List.cons_append] at hrun
    obtain ⟨u', hu', hrun'⟩ := Transition.run_append_eq_some.mp hrun
    obtain rfl := Option.some.inj (hbs.symm.trans hu')
    obtain ⟨v', hv', hrun''⟩ := Transition.run_cons_eq_some.mp hrun'
    obtain rfl := Option.some.inj (hstep.symm.trans hv')
    exact ⟨_, hrun''⟩
  have hv := hu.step hstep
  have hstopped : s.logger ≠ .running := by
    obtain ⟨x, -, -, -, rfl⟩ := store_eq_some hrun
    nofun
  exact not_terminates (hv.reaches hrest) hstopped (lost_reaches hrest hv hlost) hterm

end Store

section Wrap

variable {s : State w α}

theorem log_reaches (hlogger : s.logger = .running) {a : Ring.PushAct α}
    {ring : Ring.State w α} (hpush : PushStep s.ring a ring) :
    Transition.Reaches (step none) s
      { s with ring := ring, results := s.results ++ logged s.ring.producer a } := by
  refine .single (a := .log a) ?_
  simp only [step, hlogger, Ring.pushStep_eq_some_iff.mpr hpush]
  rfl

/-- A `log` into a queue with room, up to its write. -/
theorem log_vacant (hs : Sound none s) (hlogger : s.logger = .running)
    (hidle : s.ring.producer = .idle)
    (hroom : ¬ s.ring.inner.capacity ≤ s.ring.inner.tail.last - s.ring.inner.head.last)
    (value : α) :
    ∃ t, Transition.Reaches (step none) s t ∧ t.ring.inner = s.ring.inner ∧
      t.ring.producer = .vacant value s.ring.inner.tail.last ∧
      t.ring.consumer = s.ring.consumer ∧ t.logger = .running ∧ t.drainer = s.drainer := by
  have hseen := hs.counters.seenHead_le
  have hhead := s.ring.inner.head.read_count
  have hpush : PushStep s.ring (.loadTail value) _ := .loadTail hidle
  have hload := log_reaches hlogger hpush
  have htest := log_reaches
    (s := { s with
      ring := { s.ring with
        producer := .loadedTail value s.ring.inner.tail.last
        offered := s.ring.offered ++ [value] }
      results := s.results ++ logged s.ring.producer (.loadTail value) })
    hlogger (.vacant rfl hseen hhead hroom)
  exact ⟨_, hload.trans htest, rfl, rfl, rfl, hlogger, rfl⟩

/-- The end of a `log` that found room. -/
theorem log_write (hlogger : s.logger = .running) {value : α} {tail : BitVec w}
    (hpc : s.ring.producer = .vacant value tail) :
    ∃ t, Transition.run (step none) s [.log .write, .log .storeTail] = some t ∧
      t.ring.inner = (s.ring.inner.setSlot (s.ring.inner.idx tail) (some value)).storeTail
        (tail + 1) ∧
      t.ring.producer = .idle ∧ t.ring.consumer = s.ring.consumer ∧ t.logger = .running ∧
      t.drainer = s.drainer := by
  have hrun : Transition.run (step none) s [.log .write, .log .storeTail] = some
      { s with
        ring := { s.ring with
          inner := (s.ring.inner.setSlot (s.ring.inner.idx tail) (some value)).storeTail (tail + 1)
          producer := .idle
          accepted := s.ring.accepted ++ [value] }
        results := s.results ++ [] ++ [(value, true)] } := by
    simp [Transition.run, step, hlogger, Ring.pushStep, hpc, logged]
  exact ⟨_, hrun, rfl, rfl, rfl, hlogger, rfl⟩

/-- A `log` that is accepted, without interruption. -/
theorem log_call (hs : Sound none s) (hlogger : s.logger = .running)
    (hidle : s.ring.producer = .idle) {value : α} {inner : Ring.Inner w α}
    (h : Ring.call s.ring.inner (.push value) = some (.pushed, inner)) :
    ∃ t, Transition.Reaches (step none) s t ∧ t.ring.inner = inner ∧ t.ring.producer = .idle ∧
      t.ring.consumer = s.ring.consumer ∧ t.logger = .running ∧ t.drainer = s.drainer := by
  obtain ⟨_, -, -, heq, -⟩ | ⟨_, heq, hroom, -, rfl⟩ | ⟨heq, -⟩ | ⟨_, heq, -⟩ := Ring.call_cases h
  · cases heq
  · cases heq
    obtain ⟨u, hu, hinner, hpc, hconsumer, hrunning, hdrainer⟩ :=
      log_vacant hs hlogger hidle hroom value
    obtain ⟨t, ht, htinner, htpc, htconsumer, htrunning, htdrainer⟩ := log_write hrunning hpc
    exact ⟨t, hu.trans ⟨_, ht⟩, by rw [htinner, hinner], htpc, htconsumer.trans hconsumer,
      htrunning, htdrainer.trans hdrainer⟩
  · cases heq
  · cases heq

/-- A `try_pop` that returns an event, and the `drain_one` behind it. -/
theorem drain_call (hs : Sound none s) {pass : Pass} (hpc : s.drainer = .popping pass)
    (hidle : s.ring.consumer = .idle) {value : α} {inner : Ring.Inner w α}
    (h : Ring.call s.ring.inner .pop = some (.popped value, inner)) :
    ∃ t, Transition.Reaches (step none) s t ∧ t.ring.inner = inner ∧
      t.ring.producer = s.ring.producer ∧ t.ring.consumer = .idle ∧ t.logger = s.logger ∧
      t.drainer = .popping pass.next := by
  obtain ⟨_, heq, -⟩ | ⟨_, heq, -⟩ | ⟨-, -, heq, -⟩ | ⟨x, -, hne, -, hcell, rfl⟩ :=
    Ring.call_cases h
  · cases heq
  · cases heq
  · cases heq
  · have htail := s.ring.inner.tail.read_count
    have hseen := hs.counters.seenTail_le
    have hrun : Transition.run (step none) s
        [.tryPop .loadHead, .tryPop (.loadTail s.ring.inner.tail.count), .tryPop .read,
          .tryPop .storeHead, .drainOne, .drainOneReturns] = some
        { s with
          ring := { s.ring with
            inner := (s.ring.inner.setSlot (s.ring.inner.idx s.ring.inner.head.last)
              none).storeHead (s.ring.inner.head.last + 1)
            seenTail := s.ring.inner.tail.count
            consumer := .idle
            popped := s.ring.popped ++ [x] }
          drained := s.drained ++ [x]
          drainer := .popping pass.next } := by
      simp [Transition.run, step, hpc, Ring.popStep, hidle, hseen, htail, hne, hcell, afterPop]
    exact ⟨_, ⟨_, hrun⟩, rfl, rfl, rfl, rfl, rfl⟩

/-- Between two calls, with the ring empty and `n` events drained. -/
structure Between (n : ℕ) (s : State w α) : Prop where
  sound : Sound none s
  logger : s.logger = .running
  producer : s.ring.producer = .idle
  consumer : s.ring.consumer = .idle
  drainer : ∃ pass, s.drainer = .popping pass
  empty : Ring.Backs s.ring.inner ([] : List α)
  count : s.ring.inner.head.count = n

/-- One event logged and drained. -/
theorem Between.round {n : ℕ} (h : Between n s) (value : α) :
    ∃ t, Transition.Reaches (step none) s t ∧ t.ring.inner.capacity = s.ring.inner.capacity ∧
      Between (n + 1) t := by
  obtain ⟨pass, hpass⟩ := h.drainer
  obtain ⟨i₁, hpush, hcap₁, hback₁⟩ := h.empty.call (.push value) fun _ _ => h.empty.safePush_nil
  rw [Fifo.step_push_of_lt (by exact s.ring.inner.capacity_pos)] at hpush hback₁
  obtain ⟨t, ht, rfl, hproducer, hconsumer, hlogger, hdrainer⟩ :=
    log_call h.sound h.logger h.producer hpush
  obtain ⟨i₂, hpop, hcap₂, hback₂⟩ := hback₁.call .pop (by simp)
  have hsound := h.sound.reaches ht
  obtain ⟨u, hu, rfl, huproducer, huconsumer, hulogger, hudrainer⟩ :=
    drain_call hsound (hdrainer.trans hpass) (hconsumer.trans h.consumer) hpop
  have hhead := Ring.call_head_count hpush (by simp)
  have htail := Ring.call_tail_count hpop (by simp)
  have hlen := hback₁.length_eq
  have hlen' := hback₂.length_eq
  refine ⟨u, ht.trans hu, hcap₂.trans hcap₁, hsound.reaches hu, hulogger.trans hlogger,
    huproducer.trans hproducer, huconsumer, ⟨_, hudrainer⟩, hback₂, ?_⟩
  have hcount := h.count
  simp only [List.nil_append, List.length_singleton, Fifo.step_pop_cons, List.length_nil]
    at hlen hlen'
  omega

theorem Between.rounds (h : Between 0 s) (value : α) (n : ℕ) :
    ∃ t, Transition.Reaches (step none) s t ∧ t.ring.inner.capacity = s.ring.inner.capacity ∧
      Between n t := by
  induction n with
  | zero => exact ⟨s, .refl s, rfl, h⟩
  | succ n ih =>
    obtain ⟨t, ht, hcap, hbetween⟩ := ih
    obtain ⟨u, hu, hcap', hnext⟩ := hbetween.round value
    exact ⟨u, ht.trans hu, hcap'.trans hcap, hnext⟩

theorem Between.start {capacity : BitVec w} {inner : Ring.Inner w α}
    (hch : Ring.channel capacity = .ok inner) : Between 0 (State.start inner) where
  sound := .start (.of_channel hch)
  logger := rfl
  producer := rfl
  consumer := rfl
  drainer := ⟨_, rfl⟩
  empty := .of_channel hch
  count := by
    obtain ⟨-, -, hhead, -⟩ := Ring.channel_eq_ok hch
    simp [State.start, Ring.State.start, hhead]

end Wrap

/-- **Termination behind the shutdown flag.** After the store by `LogSink::drop`, on current
loads, `drainer_loop` gets to its `break` with the ring empty, one load of the flag and at
most one sleep, having popped exactly the events that were live, if and only if every push
before the store fitted. This is so when the capacity divides `2 ^ w` or fewer than `2 ^ w`
events have been accepted. -/
theorem drainer_terminates_iff {capacity : BitVec w} {s₀ s : State w α} {as : List (Act α)}
    (hnew : new capacity = .ok s₀)
    (hrun : Transition.run (step none) s₀ (as ++ [.storeShutdown]) = some s) :
    (Terminates s ↔ Transition.EachStep (step none) (fun u a _ => Fits u a) s₀ as) ∧
      (capacity.toNat ∣ 2 ^ w ∨ s.ring.accepted.length < 2 ^ w → Terminates s) := by
  refine ⟨⟨fits_of_terminates hnew hrun, terminates_of_fits hnew hrun⟩, fun hno => ?_⟩
  refine terminates_of_fits hnew hrun ?_
  rintro bs a cs u v rfl hbs -
  obtain ⟨inner, hch, rfl⟩ := new_eq_ok hnew
  have hcap : s.ring.inner.capacity = capacity :=
    (capacity_of_reaches ⟨_, hrun⟩).trans (Ring.channel_eq_ok hch).2.1
  have hno' : NoCollision s.ring := by rwa [NoCollision, hcap]
  -- the counters had not wrapped before they had at the end
  have hrest : Transition.Reaches (step none) u s := by
    rw [List.append_assoc] at hrun
    obtain ⟨u', hu', hrun'⟩ := Transition.run_append_eq_some.mp hrun
    obtain rfl := Option.some.inj (hbs.symm.trans hu')
    exact ⟨_, hrun'⟩
  have hnou : NoCollision u.ring :=
    hrest.guard (G := fun v => NoCollision v.ring)
      (fun _ _ _ hstep => (step_cases hstep).noCollision) hno'
  obtain ⟨hsound, hslots⟩ := sound_of_reaches hch ⟨bs, hbs⟩ hnou
  cases a with
  | log a => exact hslots.fits hsound.counters hnou a
  | _ => trivial

/-- The flag is stored with the drainer between its store of `head` and `drain_one`, and one
more event live. -/
theorem drainer_terminates_with_an_event_in_hand :
    ∃ s₀ : State 2 ℕ, new 3#2 = .ok s₀ ∧ ∃ s,
      Transition.run (step none) s₀
        ([.log (.loadTail 7), .log (.loadHead 0), .log .write, .log .storeTail,
          .log (.loadTail 8), .log (.loadHead 0), .log .write, .log .storeTail,
          .tryPop .loadHead, .tryPop (.loadTail 1), .tryPop .read, .tryPop .storeHead] ++
          [.storeShutdown]) = some s ∧
      s.drainer = .received (.poll false) 7 ∧ s.remaining = 15 ∧ Terminates s := by
  refine ⟨_, rfl, ?s, ?run, ?_, ?_,
    (drainer_terminates_iff (by rfl : new 3#2 = _) ?run).2 (.inr ?_)⟩
  case run => rfl
  all_goals decide

/-- On a 32-bit target, behind `2 ^ 32 - 1` events one at a time, two events share the first
slot of a ring of three, and the drainer does not come to its `break` with each of them
popped. -/
theorem capacity_three_not_terminates :
    ∃ s₀ : State 32 ℕ, new 3#32 = .ok s₀ ∧ ∃ as s,
      Transition.run (step none) s₀ (as ++ [.storeShutdown]) = some s ∧ ¬ Terminates s := by
  obtain ⟨inner, hch⟩ := (Ring.channel_isOk_iff (α := ℕ) 3#32).mpr (by decide)
  have hnew : new 3#32 = .ok (State.start inner) := by
    rw [new, hch]
    rfl
  obtain ⟨-, hcap, -, -⟩ := Ring.channel_eq_ok hch
  obtain ⟨t, ht, htcap, hbetween⟩ := (Between.start hch).rounds 0 (2 ^ 32 - 1)
  have hcapacity : t.ring.inner.capacity = 3#32 := htcap.trans hcap
  -- the last event before the wrap
  obtain ⟨i₁, hpush, hcap₁, hback⟩ :=
    hbetween.empty.call (.push 0) fun _ _ => hbetween.empty.safePush_nil
  rw [Fifo.step_push_of_lt (by exact t.ring.inner.capacity_pos)] at hpush hback
  obtain ⟨u, hu, rfl, hproducer, -, hlogger, -⟩ :=
    log_call hbetween.sound hbetween.logger hbetween.producer hpush
  have hhead : u.ring.inner.head.count = 2 ^ 32 - 1 :=
    (Ring.call_head_count hpush (by simp)).trans hbetween.count
  have htail := hback.length_eq
  rw [hhead] at htail
  have hcapu : u.ring.inner.capacity.toNat = 3 := by rw [hcap₁, hcapacity]; rfl
  -- the first one behind it
  have hroom : ¬ u.ring.inner.capacity ≤ u.ring.inner.tail.last - u.ring.inner.head.last := by
    rw [hback.toSettled.full_iff, hcapu, htail, hhead]
    simp
  obtain ⟨v, hv, hvinner, hpc, -, hvlogger, -⟩ :=
    log_vacant ((Sound.of_new hnew).reaches (ht.trans hu)) hlogger hproducer hroom 1
  obtain ⟨x, hx, -, hxproducer, -, hxlogger, -⟩ := log_write hvlogger hpc
  obtain ⟨as, has⟩ := (ht.trans hu).trans hv
  have hstore : Transition.run (step none) (State.start inner)
      ((as ++ [.log .write, .log .storeTail]) ++ [.storeShutdown]) = some
        { x with
          shutdown := x.shutdown.store (true, x.ring.inner.tail.count), logger := .joining } := by
    refine Transition.run_concat_eq_some.mpr ⟨x, Transition.run_append_eq_some.mpr ⟨v, has, hx⟩, ?_⟩
    simp only [step, hxlogger, hxproducer]
  refine ⟨_, hnew, _, _, hstore, fun hterm => ?_⟩
  obtain ⟨y, hy, -⟩ := Transition.run_cons_eq_some.mp hx
  have hfits : Fits v (.log .write) :=
    fits_of_terminates hnew hstore hterm as _ _ v y rfl has hy
  have hempty := hfits 1 u.ring.inner.tail.last hpc
  have hslots : v.ring.inner.idx u.ring.inner.tail.last =
      Window.slot (2 ^ 32) u.ring.inner.capacity.toNat u.ring.inner.head.count := by
    rw [hvinner, hback.tails.last_eq, Ring.Inner.idx_ofNat, htail, hhead, hcapu]
    decide
  rw [hslots, hvinner, hback.holds.head] at hempty
  cases hempty

end LogSink
