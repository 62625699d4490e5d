import TympanLadspa.Realtime.RingInvariant

/-!
# The calls of the ring never wait

`try_push` and `try_pop` "perform a fixed number" of operations and "never block": whatever
the other side does, and if it stops for good, the step that a call is at can be taken, and
after four of its own steps it has returned.
-/

namespace Ring

variable {w : ℕ} {α : Type*}

namespace Act

@[simp] def isPush : Act α → Bool
  | push _ => true
  | pop _ => false

@[simp] def isPop : Act α → Bool
  | pop _ => true
  | push _ => false

/-- The step with which a `try_pop` that has found nothing returns. -/
@[simp] def isNone : Act α → Bool
  | pop .returnNone => true
  | _ => false

end Act

/-- The steps a call of `try_push` has made. -/
@[simp] def PushPc.made : PushPc w α → ℕ
  | .idle => 0
  | .loadedTail _ _ => 1
  | .full _ | .vacant _ _ => 2
  | .written _ _ => 3

/-- The steps a call of `try_pop` has made. -/
@[simp] def PopPc.made : PopPc w α → ℕ
  | .idle => 0
  | .loadedHead _ => 1
  | .empty | .ready _ => 2
  | .taken _ _ => 3
  | .uninit => 0

/-- The steps of `try_push` so far: four for each value accepted, three for each refused, and
those of the call that has not returned. -/
def State.pushSteps (s : State w α) : ℕ :=
  4 * s.accepted.length + 3 * s.rejected.length + s.producer.made

/-- The steps of `try_pop` so far, apart from three for each call that has found nothing. -/
def State.popSteps (s : State w α) : ℕ := 4 * s.popped.length + s.consumer.made

section

variable {s t : State w α}

theorem PushStep.pays {a : PushAct α} (h : PushStep s a t) : t.pushSteps = s.pushSteps + 1 := by
  cases h <;> simp [State.pushSteps, *] <;> omega

/-- Four steps are more than a call has. -/
theorem PushStep.returns {a : PushAct α} (h : PushStep s a t) :
    4 * (s.accepted.length + s.rejected.length) + s.producer.made + 1 ≤
      4 * (t.accepted.length + t.rejected.length) + t.producer.made := by
  cases h <;> simp [*] <;> omega

theorem PushStep.popSteps_eq {a : PushAct α} (h : PushStep s a t) : t.popSteps = s.popSteps := by
  cases h <;> rfl

theorem PopStep.pushSteps_eq {a : PopAct} (h : PopStep s a t) : t.pushSteps = s.pushSteps := by
  cases h <;> rfl

theorem PopStep.pays {a : PopAct} (h : PopStep s a t) (hc : Counters s) (hs : Slots s) :
    t.popSteps + (if a = .returnNone then 3 else 0) = s.popSteps + 1 := by
  cases h with
  | uninit hready hcell =>
    obtain ⟨value, hvalue⟩ := hs.readable hc hready
    exact absurd hvalue (hcell value)
  | storeHead htaken =>
    simp [State.popSteps, htaken]
    omega
  | _ => simp [State.popSteps, *]

/-- The producer has a step to take: the one its call is at, or the first one of a call. -/
theorem Counters.push_enabled (h : Counters s) (value : α) :
    ∃ a u, Ring.step s (.push a) = some u ∧ (a = .loadTail value ∨ s.producer ≠ .idle) := by
  cases hpc : s.producer with
  | idle => exact ⟨_, _, pushStep_eq_some_iff.mpr (.loadTail hpc), .inl rfl⟩
  | loadedTail value' tail =>
    have hread := s.inner.head.read_count
    by_cases hfull : s.inner.capacity ≤ tail - s.inner.head.last
    · exact ⟨_, _, pushStep_eq_some_iff.mpr (.full hpc h.seenHead_le hread hfull), .inr nofun⟩
    · exact ⟨_, _, pushStep_eq_some_iff.mpr (.vacant hpc h.seenHead_le hread hfull), .inr nofun⟩
  | full value' => exact ⟨_, _, pushStep_eq_some_iff.mpr (.returnErr hpc), .inr nofun⟩
  | vacant value' tail => exact ⟨_, _, pushStep_eq_some_iff.mpr (.write hpc), .inr nofun⟩
  | written value' tail => exact ⟨_, _, pushStep_eq_some_iff.mpr (.storeTail hpc), .inr nofun⟩

/-- The consumer has a step to take. -/
theorem Slots.pop_enabled (h : Slots s) (hc : Counters s) :
    ∃ a u, Ring.step s (.pop a) = some u := by
  cases hpc : s.consumer with
  | idle => exact ⟨_, _, popStep_eq_some_iff.mpr (.loadHead hpc)⟩
  | loadedHead head =>
    have hread := s.inner.tail.read_count
    by_cases heq : head = s.inner.tail.last
    · subst heq
      exact ⟨_, _, popStep_eq_some_iff.mpr (.empty hpc hc.seenTail_le hread)⟩
    · exact ⟨_, _, popStep_eq_some_iff.mpr (.ready hpc hc.seenTail_le hread heq)⟩
  | empty => exact ⟨_, _, popStep_eq_some_iff.mpr (.returnNone hpc)⟩
  | ready head =>
    obtain ⟨value, hvalue⟩ := h.readable hc hpc
    exact ⟨_, _, popStep_eq_some_iff.mpr (.read hpc hvalue)⟩
  | taken value head => exact ⟨_, _, popStep_eq_some_iff.mpr (.storeHead hpc)⟩
  | uninit => exact absurd hpc h.initialised

/-- **Run.** Every step of the producer is one of a call, whatever the consumer does. -/
theorem pushSteps_run {as : List (Act α)} (hrun : Transition.run step s as = some t) :
    t.pushSteps = s.pushSteps + as.countP Act.isPush := by
  induction as generalizing s with
  | nil =>
    cases hrun
    rfl
  | cons a as ih =>
    obtain ⟨u, hu, hrest⟩ := Transition.run_cons_eq_some.mp hrun
    rw [ih hrest, List.countP_cons]
    rcases step_cases hu with ⟨b, rfl, hpush⟩ | ⟨b, rfl, hpop⟩
    · rw [hpush.pays, Act.isPush, if_pos rfl]
      omega
    · rw [hpop.pushSteps_eq]
      rfl

theorem returns_run {as : List (Act α)} (hrun : Transition.run step s as = some t) :
    4 * (s.accepted.length + s.rejected.length) + s.producer.made + as.countP Act.isPush ≤
      4 * (t.accepted.length + t.rejected.length) + t.producer.made := by
  induction as generalizing s with
  | nil =>
    cases hrun
    exact le_rfl
  | cons a as ih =>
    obtain ⟨u, hu, hrest⟩ := Transition.run_cons_eq_some.mp hrun
    have htail := ih hrest
    rw [List.countP_cons]
    rcases step_cases hu with ⟨b, rfl, hpush⟩ | ⟨b, rfl, hpop⟩
    · have hstep := hpush.returns
      rw [Act.isPush, if_pos rfl]
      omega
    · obtain ⟨hproducer, haccepted, hrejected⟩ := hpop.frame
      rw [hproducer, haccepted, hrejected] at htail
      exact htail

/-- **Run.** Every step of the consumer is one of a call, whatever the producer does. -/
theorem popSteps_run {as : List (Act α)} (hc : Counters s) (hs : Slots s)
    (hrun : Transition.run step s as = some t) (hno : NoCollision t) :
    t.popSteps + 3 * as.countP Act.isNone = s.popSteps + as.countP Act.isPop := by
  induction as generalizing s with
  | nil =>
    cases hrun
    rfl
  | cons a as ih =>
    obtain ⟨u, hu, hrest⟩ := Transition.run_cons_eq_some.mp hrun
    have hnos : NoCollision s := NoCollision.of_reaches (.of_run hrun) hno
    have htail := ih (hc.step hu) (hs.step hc hnos hu) hrest
    rw [List.countP_cons, List.countP_cons]
    rcases step_cases hu with ⟨b, rfl, hpush⟩ | ⟨b, rfl, hpop⟩
    · rw [hpush.popSteps_eq] at htail
      exact htail
    · have hpays := hpop.pays hc hs
      cases b <;> simp at hpays ⊢ <;> omega

end

/-- **Wait-freedom.** In any run, with stale loads or not: the steps the producer makes are four
for each value accepted and three for each one refused, up to those of the call it is in, so
that a call has returned after four of them; the steps of the consumer likewise, with three
for each call that finds nothing; and at its end either side can make the step it is at. -/
theorem wait_free {capacity : BitVec w} {inner : Inner w α} (hch : channel capacity = .ok inner)
    {s t : State w α} {as : List (Act α)} (hreach : Transition.Reaches step (.start inner) s)
    (hrun : Transition.run step s as = some t)
    (hno : capacity.toNat ∣ 2 ^ w ∨ t.accepted.length < 2 ^ w) :
    t.pushSteps = s.pushSteps + as.countP Act.isPush ∧
      (4 ≤ as.countP Act.isPush →
        s.accepted.length + s.rejected.length < t.accepted.length + t.rejected.length) ∧
      t.popSteps + 3 * as.countP Act.isNone = s.popSteps + as.countP Act.isPop ∧
      (4 ≤ as.countP Act.isPop → s.popped.length < t.popped.length ∨ 0 < as.countP Act.isNone) ∧
      (∀ value, ∃ a u, step t (.push a) = some u ∧ (a = .loadTail value ∨ t.producer ≠ .idle)) ∧
      ∃ a u, step t (.pop a) = some u := by
  have hst : Transition.Reaches step s t := .of_run hrun
  have hcap : t.inner.capacity = capacity :=
    (capacity_of_reaches (hreach.trans hst)).trans (channel_eq_ok hch).2.1
  have hnot : NoCollision t := by rwa [NoCollision, hcap]
  have hnos : NoCollision s := .of_reaches hst hnot
  have hc := (Counters.of_channel hch).reaches hreach
  have hs := Slots.reaches hreach (.of_channel hch) (.of_channel hch) hnos
  have hct := hc.reaches hst
  have hslots := Slots.reaches hst hc hs hnot
  have hpush := pushSteps_run hrun
  have hpop := popSteps_run hc hs hrun hnot
  refine ⟨hpush, ?_, hpop, ?_, hct.push_enabled, hslots.pop_enabled hct⟩
  · intro hfour
    have hmade : t.producer.made ≤ 3 := by cases t.producer <;> simp
    have hreturns := returns_run hrun
    omega
  · intro hfour
    have hmade : t.consumer.made ≤ 3 := by cases t.consumer <;> simp
    rw [State.popSteps, State.popSteps] at hpop
    omega

/-- Three calls of `try_push`, one of them refused, and one of `try_pop`, with stale loads. -/
theorem wait_free_after_stale_loads :
    ∃ inner : Inner 2 ℕ, channel 2#2 = .ok inner ∧ ∃ t,
      Transition.run step (.start inner)
        [.push (.loadTail 7), .push (.loadHead 0), .push .write, .push .storeTail,
          .push (.loadTail 8), .pop .loadHead, .push (.loadHead 0), .push .write,
          .push .storeTail, .pop (.loadTail 1), .pop .read, .push (.loadTail 9),
          .pop .storeHead, .push (.loadHead 0), .push .returnErr] = some t ∧
      t.pushSteps = 4 * 2 + 3 ∧ t.popSteps = 4 ∧ ∃ a u, step t (.pop a) = some u := by
  obtain ⟨t, ht⟩ : ∃ t, Transition.run step (.start
      { buffer := [none, none], capacity := 2#2, head := .new 0, tail := .new 0
        capacity_pos := by decide, buffer_length := rfl } : State 2 ℕ)
      [.push (.loadTail 7), .push (.loadHead 0), .push .write, .push .storeTail,
        .push (.loadTail 8), .pop .loadHead, .push (.loadHead 0), .push .write,
        .push .storeTail, .pop (.loadTail 1), .pop .read, .push (.loadTail 9),
        .pop .storeHead, .push (.loadHead 0), .push .returnErr] = some t := ⟨_, rfl⟩
  obtain ⟨hpush, -, hpop, -, -, henabled⟩ :=
    wait_free (by rfl : channel 2#2 = _) (.refl _) ht (.inl (by decide))
  exact ⟨_, rfl, t, ht, hpush, hpop, henabled⟩

end Ring
