import TympanLadspa.Realtime.LogShutdown

/-!
# The latency of the drainer

While the logging thread goes on as it likes, an event that has been accepted waits for the
events in front of it, six steps of the drainer each, and for what the drainer is at: at the
worst the end of a pass that found the ring empty, the load of the flag and one sleep of
`DRAINER_POLL_INTERVAL`. There is no second sleep before `drain_one` is called on it.
-/

namespace LogSink

open Ring (PopPc PopAct PopStep PushStep Counters Slots NoCollision)

variable {w : ℕ} {α : Type*}

/-- The steps to the end of a pass over a ring with one more event, and through a pass that
has found none. -/
@[simp] def popOwed (pass : Pass) : PopPc w α → ℕ
  | .idle => 3
  | .loadedHead _ => 2
  | .ready _ => 1
  | .taken _ _ | .uninit => 0
  | .empty =>
    match pass with
    | .poll true => 5
    | .poll false => 6
    | .last => 0

/-- The steps of the drainer to the next call of `drain_one`, apart from the six for each event
in front of it. -/
@[simp] def DrainerPc.owed (consumer : PopPc w α) : DrainerPc α → ℕ
  | .popping pass => popOwed pass consumer
  | .received _ _ => 5
  | .draining _ => 4
  | .checking true => 4
  | .checking false => 5
  | .sleeping => 4
  | .exited | .panicked => 0

/-- The sleeps of the drainer to the next call of `drain_one`. -/
@[simp] def DrainerPc.sleepsOwed (consumer : PopPc w α) : DrainerPc α → ℕ
  | .popping (.poll false) =>
    match consumer with
    | .empty => 1
    | _ => 0
  | .checking false | .sleeping => 1
  | _ => 0

/-- The steps of the drainer until it has called `drain_one` on the first `n` events. -/
def State.owed (n : ℕ) (s : State w α) : ℕ :=
  6 * (n - s.ring.inner.head.count) + s.drainer.owed s.ring.consumer

def State.sleepsOwed (s : State w α) : ℕ := s.drainer.sleepsOwed s.ring.consumer

/-- There are `n` events to drain, and the drainer has not got through them. -/
structure Waiting (n : ℕ) (s : State w α) : Prop where
  sound : Sound none s
  slots : Slots s.ring
  accepted : n ≤ s.ring.inner.tail.count
  behind : s.drained.length < n

/-- What a step takes off what is owed. -/
structure Repays (n : ℕ) (s : State w α) (a : Act α) (t : State w α) : Prop where
  steps : t.owed n + (if a.ofDrainer then 1 else 0) ≤ s.owed n
  sleeps : t.sleepsOwed + (if a.isSleep then 1 else 0) ≤ s.sleepsOwed

namespace Waiting

variable {n : ℕ} {s t : State w α}

/-- Outside `received`, an event that is waited for is still in the ring. -/
theorem head_lt (h : Waiting n s) (hhand : s.drainer.inHand = []) :
    s.ring.inner.head.count < n := by
  have hpopped := congrArg List.length h.sound.popped
  rw [hhand, List.append_nil, h.sound.counters.popped_length] at hpopped
  exact hpopped ▸ h.behind

/-- A drainer with an event in its hands is at the last one at most. -/
theorem head_le (h : Waiting n s) : s.ring.inner.head.count ≤ n := by
  have hpopped := congrArg List.length h.sound.popped
  rw [List.length_append, h.sound.counters.popped_length] at hpopped
  have hbehind := h.behind
  have hhand : s.drainer.inHand.length ≤ 1 := by
    cases s.drainer <;> simp [DrainerPc.inHand]
  omega

theorem repays_tryPop (h : Waiting n s) {pass : Pass} {a : PopAct} {ring : Ring.State w α}
    (hpc : s.drainer = .popping pass) (hcurrent : Current s (.tryPop a))
    (hpop : PopStep s.ring a ring) :
    Repays n s (.tryPop a) { s with ring := ring, drainer := afterPop pass s.ring.consumer a } := by
  have hc := h.sound.counters
  have hlt := h.head_lt (by rw [hpc]; rfl)
  cases hpop with
  | loadHead hidle =>
    constructor <;> cases pass <;> simp [State.owed, State.sleepsOwed, afterPop, hpc, hidle]
  | @empty head place hloaded hseen hread =>
    -- a current load sees the event
    exfalso
    obtain rfl : place = s.ring.inner.tail.count := hcurrent
    have hok := hc.consumer_ok
    rw [hloaded] at hok
    obtain ⟨hle, hvalue⟩ := hc.tails.read_eq_some hread
    have heq := (hc.empty_iff hseen le_rfl).mp (hok.symm.trans hvalue)
    have := h.accepted
    omega
  | @ready head tail place hloaded hseen hread hne =>
    constructor <;> cases pass <;> simp [State.owed, State.sleepsOwed, afterPop, hpc, hloaded]
  | returnNone hempty =>
    cases pass with
    | poll drained =>
      constructor <;> cases drained <;>
        simp [State.owed, State.sleepsOwed, afterPop, hpc, hempty]
    | last =>
      -- the last pass knows all of `tail`
      exfalso
      have hok := hc.consumer_ok
      rw [hempty] at hok
      have hlast := (h.sound.last (by rw [hpc]; rfl)).2
      have hhead : s.ring.inner.head.count = s.ring.seenTail := hok
      have := h.accepted
      omega
  | read hready hcell =>
    constructor <;> cases pass <;> simp [State.owed, State.sleepsOwed, afterPop, hpc, hready]
  | uninit hready hcell =>
    obtain ⟨value, hvalue⟩ := h.slots.readable hc hready
    exact absurd hvalue (hcell value)
  | storeHead htaken =>
    constructor
    · cases pass <;> simp [State.owed, afterPop, hpc, htaken] <;> omega
    · cases pass <;> simp [State.sleepsOwed, afterPop, htaken]

/-- **Step.** Each step of the drainer takes one off what is owed, whatever the logging thread
does in between. -/
theorem repays (h : Waiting n s) {a : Act α} (hstep : stepCurrent none s a = some t) :
    Repays n s a t := by
  obtain ⟨hcurrent, hstep⟩ := Transition.restrict_eq_some.mp hstep
  have hidle := h.sound.consumer_idle
  cases step_cases hstep with
  | log hlogger hpush => cases hpush <;> exact ⟨le_rfl, le_rfl⟩
  | storeShutdown => exact ⟨le_rfl, le_rfl⟩
  | join => exact ⟨le_rfl, le_rfl⟩
  | tryPop hpc hpop => exact h.repays_tryPop hpc hcurrent hpop
  | @drainOne pass event hpc =>
    have hconsumer := hidle (by simp [hpc])
    constructor <;> simp [State.owed, State.sleepsOwed, hpc]
  | panic hpc hpanic => cases hpanic
  | @drainOneReturns pass hpc =>
    have hconsumer := hidle (by simp [hpc])
    constructor <;> cases pass <;>
      simp [State.owed, State.sleepsOwed, Pass.next, hpc, hconsumer]
  | @seesShutdown drained place view hpc =>
    have hconsumer := hidle (by simp [hpc])
    constructor <;> cases drained <;>
      simp [State.owed, State.sleepsOwed, observeTail, hpc, hconsumer]
  | @seesRunning drained place view hpc =>
    have hconsumer := hidle (by simp [hpc])
    constructor <;> cases drained <;>
      simp [State.owed, State.sleepsOwed, observeTail, hpc, hconsumer]
  | sleep hpc =>
    have hconsumer := hidle (by simp [hpc])
    constructor <;> simp [State.owed, State.sleepsOwed, hpc, hconsumer]

/-- What is owed before a call of `drain_one` is not nothing. -/
theorem owed_pos (h : Waiting n s) : 0 < s.owed n := by
  cases hhand : s.drainer.inHand with
  | nil =>
    have := h.head_lt hhand
    rw [State.owed]
    omega
  | cons event rest =>
    cases hpc : s.drainer with
    | received pass value => simp [State.owed, hpc]
    | _ =>
      rw [hpc] at hhand
      cases hhand

end Waiting

section Run

variable {n : ℕ} {s t : State w α}

theorem drained_grows {panicAt : Option ℕ} {a : Act α} (h : Step panicAt s a t) :
    s.drained <+: t.drained := by
  cases h with
  | drainOne hpc => exact List.prefix_append _ _
  | _ => exact List.prefix_rfl

theorem accepted_grows {panicAt : Option ℕ} {a : Act α} (h : Step panicAt s a t) :
    s.ring.accepted <+: t.ring.accepted := by
  rcases h.ring_cases with heq | ⟨b, hb⟩ | ⟨place, heq⟩
  · rw [heq]
  · exact Ring.step_accepted hb
  · rw [heq]
    exact List.prefix_rfl

theorem drained_prefix_of_reaches {panicAt : Option ℕ}
    (h : Transition.Reaches (step panicAt) s t) : s.drained <+: t.drained := by
  refine h.invariant (I := fun u => s.drained <+: u.drained) ?_ List.prefix_rfl
  intro u a v hu hstep
  exact hu.trans (drained_grows (step_cases hstep))

theorem accepted_prefix_of_reaches {panicAt : Option ℕ}
    (h : Transition.Reaches (step panicAt) s t) : s.ring.accepted <+: t.ring.accepted := by
  refine h.invariant (I := fun u => s.ring.accepted <+: u.ring.accepted) ?_ List.prefix_rfl
  intro u a v hu hstep
  exact hu.trans (accepted_grows (step_cases hstep))

/-- The drainer is still behind after a step that does not bring it to event `n`. -/
theorem Waiting.step {a : Act α} (h : Waiting n s) (hstep : LogSink.step none s a = some t)
    (hno : NoCollision t.ring) (ht : t.drained.length < n) : Waiting n t := by
  have hcases := step_cases hstep
  have hsound := h.sound.step hstep
  have hgrows := (accepted_grows hcases).length_le
  rw [h.sound.counters.accepted_length, hsound.counters.accepted_length] at hgrows
  exact
    { sound := hsound
      slots := hcases.slots h.sound.counters (hcases.noCollision hno) h.slots
      accepted := h.accepted.trans hgrows
      behind := ht }

/-- **Run.** As long as one of the first `n` events has not been drained, the steps and the
sleeps of the drainer are paid for. -/
theorem Waiting.run {as : List (Act α)} (h : Waiting n s)
    (hrun : Transition.run (stepCurrent none) s as = some t) (hno : NoCollision t.ring)
    (ht : t.drained.length < n) :
    0 < t.owed n ∧ t.owed n + as.countP Act.ofDrainer ≤ s.owed n ∧
      as.countP Act.isSleep ≤ s.sleepsOwed := by
  induction as generalizing s with
  | nil =>
    cases hrun
    exact ⟨h.owed_pos, le_rfl, Nat.zero_le _⟩
  | cons a as ih =>
    obtain ⟨u, hu, hrest⟩ := Transition.run_cons_eq_some.mp hrun
    have hreach : Transition.Reaches (LogSink.step none) u t :=
      ⟨as, Transition.run_of_restrict hrest⟩
    have hnou : NoCollision u.ring :=
      hreach.guard (G := fun v => NoCollision v.ring)
        (fun _ _ _ hstep => (step_cases hstep).noCollision) hno
    have hbehind := (drained_prefix_of_reaches hreach).length_le.trans_lt ht
    have hu' : Waiting n u := h.step (Transition.restrict_eq_some.mp hu).2 hnou hbehind
    obtain ⟨hpos, hsteps, hsleeps⟩ := ih hu' hrest
    have hrepays := h.repays hu
    have hsteps' := hrepays.steps
    have hsleeps' := hrepays.sleeps
    rw [List.countP_cons, List.countP_cons]
    exact ⟨hpos, by omega, by omega⟩

theorem DrainerPc.owed_le (d : DrainerPc α) (consumer : PopPc w α) : d.owed consumer ≤ 6 := by
  cases d with
  | popping pass =>
    cases consumer with
    | empty =>
      cases pass with
      | poll drained => cases drained <;> simp
      | last => simp
    | _ => simp
  | checking drained => cases drained <;> simp
  | _ => simp

theorem DrainerPc.sleepsOwed_le (d : DrainerPc α) (consumer : PopPc w α) :
    d.sleepsOwed consumer ≤ 1 := by
  unfold sleepsOwed
  split
  · split <;> simp
  all_goals simp

/-- In a ring in order the events drained are the first ones accepted. -/
theorem drained_prefix_accepted (hs : Sound none s) (hslots : Slots s.ring) :
    s.drained <+: s.ring.accepted := by
  have hpopped : s.ring.popped <+: s.ring.accepted := by
    have hfifo := hslots.live_eq hs.counters
    have hprefix : s.ring.popped.map some <+: s.ring.accepted.map some := ⟨_, hfifo⟩
    exact (List.prefix_map_iff_of_injective (Option.some_injective α)).mp hprefix
  exact (List.prefix_append _ _).trans (hs.popped ▸ hpopped)

/-- **Bounded latency.** Whatever the logging thread does meanwhile, on current loads and with
a `drain_one` that returns: the events accepted so far have been passed to `drain_one`, in
order, once the drainer has made six steps for each of them still in the ring and six more,
and also once it has slept twice. -/
theorem drained_within {capacity : BitVec w} {s₀ : State w α} {as : List (Act α)}
    (hnew : new capacity = .ok s₀) (hreach : Transition.Reaches (step none) s₀ s)
    (hrun : Transition.run (stepCurrent none) s as = some t)
    (hno : capacity.toNat ∣ 2 ^ w ∨ t.ring.accepted.length < 2 ^ w)
    (hlong : 6 * s.unpopped + 6 ≤ as.countP Act.ofDrainer ∨ 2 ≤ as.countP Act.isSleep) :
    s.ring.accepted <+: t.drained := by
  obtain ⟨inner, hch, rfl⟩ := new_eq_ok hnew
  have hst : Transition.Reaches (step none) s t := ⟨as, Transition.run_of_restrict hrun⟩
  have hcap : t.ring.inner.capacity = capacity :=
    (capacity_of_reaches (hreach.trans hst)).trans (Ring.channel_eq_ok hch).2.1
  have hnot : NoCollision t.ring := by rwa [NoCollision, hcap]
  have hnos : NoCollision s.ring :=
    hst.guard (G := fun v => NoCollision v.ring)
      (fun _ _ _ hstep => (step_cases hstep).noCollision) hnot
  obtain ⟨hsound, hslots⟩ := sound_of_reaches hch hreach hnos
  obtain ⟨hsound', hslots'⟩ := sound_of_reaches hch (hreach.trans hst) hnot
  have hlength := hsound.counters.accepted_length
  have hle : s.ring.accepted.length ≤ t.drained.length := by
    by_contra hbehind
    have hlt := Nat.lt_of_not_le hbehind
    have hwaiting : Waiting s.ring.accepted.length s :=
      { sound := hsound
        slots := hslots
        accepted := hlength.le
        behind := (drained_prefix_of_reaches hst).length_le.trans_lt hlt }
    obtain ⟨hpos, hsteps, hsleeps⟩ := hwaiting.run hrun hnot hlt
    have howed : s.owed s.ring.accepted.length ≤ 6 * s.unpopped + 6 := by
      rw [State.owed, State.unpopped, hlength]
      exact Nat.add_le_add_left (s.drainer.owed_le _) _
    have hsleepsOwed : s.sleepsOwed ≤ 1 := s.drainer.sleepsOwed_le _
    omega
  exact List.prefix_of_prefix_length_le (accepted_prefix_of_reaches hst)
    (drained_prefix_accepted hsound' hslots') hle

/-- The drainer has found the ring empty when the event is accepted: it sleeps once, and is
at the event with its eighth step. -/
theorem drained_behind_an_empty_pass :
    ∃ s₀ : State 2 ℕ, new 2#2 = .ok s₀ ∧ ∃ s t,
      Transition.run (step none) s₀
        [.tryPop .loadHead, .tryPop (.loadTail 0), .log (.loadTail 7), .log (.loadHead 0),
          .log .write, .log .storeTail] = some s ∧
      Transition.run (stepCurrent none) s
        [.tryPop .returnNone, .loadShutdown 0, .log (.loadTail 8), .sleep, .tryPop .loadHead,
          .tryPop (.loadTail 1), .log (.loadHead 0), .tryPop .read, .tryPop .storeHead, .drainOne,
          .drainOneReturns, .tryPop .loadHead, .tryPop (.loadTail 1), .tryPop .returnNone] =
        some t ∧
      s.ring.accepted = [7] ∧ t.drained = [7] ∧ s.ring.accepted <+: t.drained := by
  refine ⟨_, rfl, ?s, ?t, ?before, ?run, ?_, ?_, drained_within (by rfl : new 2#2 = _)
    (.of_run ?before) ?run (.inl (by decide)) (.inl ?_)⟩
  case before => rfl
  case run => rfl
  all_goals decide

end Run

end LogSink
