import TympanLadspa.Realtime.LogSink
import TympanLadspa.Realtime.RingInvariant

/-!
# The flush protocol of the log sink

`LogSink::drop` stores the shutdown flag and waits; the drainer polls once more after
it has seen the flag. `Sound` relates the two threads in every reachable state, whether
or not `drain_one` panics; `flushed` is what it says when `LogSink::drop` returns.
-/

namespace LogSink

open Ring (PushPc PopPc PushStep PopStep Counters Slots NoCollision)

variable {w : ℕ} {α : Type*}

/-- The event popped and not yet passed to `drain_one`. -/
def DrainerPc.inHand : DrainerPc α → List α
  | .received _ event => [event]
  | _ => []

/-- The drainer has seen the shutdown flag. -/
def DrainerPc.InLast : DrainerPc α → Prop
  | .popping pass | .received pass _ | .draining pass => pass = .last
  | .exited => True
  | .checking _ | .sleeping | .panicked => False

/-- The flag: unset while the logging thread runs, then set together with the place `tail`
had reached. -/
def shutdownOf (tail : ℕ) : LoggerPc → Location (Bool × ℕ)
  | .running => .new (false, 0)
  | .joining | .dropped => (Location.new (false, 0)).store (true, tail)

/-- What holds between the two threads. -/
structure Sound (panicAt : Option ℕ) (s : State w α) : Prop where
  counters : Counters s.ring
  /-- Every event logged has its result, in order. -/
  results_events : s.results.map Prod.fst ++ s.ring.producer.offering = s.ring.offered
  results_true : (s.results.filter Prod.snd).map Prod.fst = s.ring.accepted
  /-- What has been popped has been drained, up to the event in hand. -/
  popped : s.drained ++ s.drainer.inHand = s.ring.popped
  shutdown : s.shutdown = shutdownOf s.ring.inner.tail.count s.logger
  producer_idle : s.logger ≠ .running → s.ring.producer = .idle
  consumer_idle : (∀ pass, s.drainer ≠ .popping pass) → s.ring.consumer = .idle
  /-- Behind the flag nothing is pushed, and the drainer knows all of `tail`. -/
  last : s.drainer.InLast →
    s.logger ≠ .running ∧ s.ring.seenTail = s.ring.inner.tail.count
  exited : s.drainer = .exited → s.ring.inner.head.count = s.ring.inner.tail.count
  panicked : s.drainer = .panicked → panicAt = some s.drained.length
  joined : s.logger = .dropped → s.drainer = .exited ∨ s.drainer = .panicked

theorem Sound.start {panicAt : Option ℕ} {inner : Ring.Inner w α}
    (hc : Counters (Ring.State.start inner)) : Sound panicAt (State.start inner) where
  counters := hc
  results_events := rfl
  results_true := rfl
  popped := rfl
  shutdown := rfl
  producer_idle := fun _ => rfl
  consumer_idle := fun _ => rfl
  last := by intro h; cases h
  exited := by intro h; cases h
  panicked := by intro h; cases h
  joined := by intro h; cases h

/-- An acquire of a place that `tail` has reached keeps the counters in order. -/
theorem counters_observeTail {s : Ring.State w α} (h : Counters s) {place : ℕ}
    (hplace : place ≤ s.inner.tail.count) (hidle : s.consumer = .idle) :
    Counters (observeTail s place) := by
  have hseen := h.seenTail_le
  have hhead := h.head_le_seen
  exact { h with
    seenTail_le := max_le hseen hplace
    head_le_seen := le_max_of_le_left hhead
    consumer_ok := by simp only [observeTail, hidle]; trivial }

/-- What a step of `log` adds to the results. -/
theorem logged_events {s t : Ring.State w α} {a : Ring.PushAct α} (h : PushStep s a t)
    {events : List α} (heq : events ++ s.producer.offering = s.offered) :
    events ++ (logged s.producer a).map Prod.fst ++ t.producer.offering = t.offered := by
  cases h <;> simp_all [logged, PushPc.offering]

theorem logged_true {s t : Ring.State w α} {a : Ring.PushAct α} (h : PushStep s a t) :
    t.accepted = s.accepted ++ ((logged s.producer a).filter Prod.snd).map Prod.fst := by
  cases h <;> simp_all [logged]

/-- What a step of `try_pop` hands to the drainer. -/
theorem afterPop_popped {s t : Ring.State w α} {a : Ring.PopAct} (h : PopStep s a t)
    (pass : Pass) : t.popped = s.popped ++ (afterPop pass s.consumer a).inHand := by
  cases h with
  | returnNone hpc => cases pass <;> simp [hpc, afterPop, DrainerPc.inHand]
  | storeHead hpc => simp [hpc, afterPop, DrainerPc.inHand]
  | _ => simp_all [afterPop, DrainerPc.inHand]

/-- The drainer leaves `try_pop` only when the call has returned. -/
theorem afterPop_consumer {s t : Ring.State w α} {a : Ring.PopAct} (h : PopStep s a t)
    {pass : Pass} (hne : ∀ pass', afterPop pass s.consumer a ≠ .popping pass') :
    t.consumer = .idle := by
  cases h with
  | returnNone hpc => rfl
  | storeHead hpc => rfl
  | _ => simp_all [afterPop]

theorem afterPop_inLast {c : PopPc w α} {a : Ring.PopAct} {pass : Pass}
    (h : (afterPop pass c a).InLast) : pass = .last := by
  unfold afterPop at h
  split at h
  · exact h
  · cases pass with
    | poll drained => cases h
    | last => rfl
  · exact h

namespace Sound

variable {panicAt : Option ℕ} {s t : State w α}

/-- An entry of the flag never promises more of `tail` than has been stored. -/
theorem view_le (h : Sound panicAt s) {place view : ℕ} {flag : Bool}
    (hread : s.shutdown.read place = some (flag, view)) :
    view ≤ s.ring.inner.tail.count ∧
      (flag = true → s.logger ≠ .running ∧ view = s.ring.inner.tail.count) := by
  rw [h.shutdown] at hread
  have hnew : ∀ b : Bool × ℕ, (Location.new b).read place = some (flag, view) →
      place = 0 ∧ b = (flag, view) := by
    intro b hb
    cases place with
    | zero => exact ⟨rfl, Option.some.inj hb⟩
    | succ place => cases hb
  cases hlogger : s.logger with
  | running =>
    rw [hlogger] at hread
    obtain ⟨-, heq⟩ := hnew _ hread
    cases heq
    exact ⟨Nat.zero_le _, fun h => nomatch h⟩
  | joining | dropped =>
    rw [hlogger] at hread
    match place, hread with
    | 0, hread =>
      cases Option.some.inj hread
      exact ⟨Nat.zero_le _, fun h => nomatch h⟩
    | 1, hread =>
      cases Option.some.inj hread
      exact ⟨le_rfl, fun _ => ⟨by simp, rfl⟩⟩
    | _ + 2, hread => cases hread

theorem log {a : Ring.PushAct α} {ring : Ring.State w α} (h : Sound panicAt s)
    (hlogger : s.logger = .running) (hpush : PushStep s.ring a ring) :
    Sound panicAt
      { s with ring := ring, results := s.results ++ logged s.ring.producer a } where
  counters := h.counters.pushStep hpush
  results_events := by
    rw [List.map_append]
    exact logged_events hpush h.results_events
  results_true := by
    rw [List.filter_append, List.map_append, h.results_true]
    exact (logged_true hpush).symm
  popped := h.popped.trans hpush.frame.2.symm
  shutdown := by
    rw [h.shutdown, hlogger]
    rfl
  producer_idle := fun hne => absurd hlogger hne
  consumer_idle := fun hne => hpush.frame.1.trans (h.consumer_idle hne)
  last := fun hlast => absurd hlogger (h.last hlast).1
  exited := fun hexit => absurd hlogger (h.last (by rw [hexit]; trivial)).1
  panicked := h.panicked
  joined := fun hdrop => absurd hdrop (by simp [hlogger])

theorem storeShutdown (h : Sound panicAt s) (hlogger : s.logger = .running)
    (hidle : s.ring.producer = .idle) :
    Sound panicAt
      { s with
        shutdown := s.shutdown.store (true, s.ring.inner.tail.count)
        logger := .joining } :=
  { h with
    shutdown := by
      rw [h.shutdown, hlogger]
      rfl
    producer_idle := fun _ => hidle
    last := fun hlast => absurd hlogger (h.last hlast).1
    joined := fun hdrop => nomatch hdrop }

theorem join (h : Sound panicAt s) (hlogger : s.logger = .joining)
    (hdone : s.drainer = .exited ∨ s.drainer = .panicked) :
    Sound panicAt { s with logger := .dropped } :=
  { h with
    shutdown := by
      rw [h.shutdown, hlogger]
      rfl
    producer_idle := fun _ => h.producer_idle (by simp [hlogger])
    last := fun hlast => ⟨by simp, (h.last hlast).2⟩
    joined := fun _ => hdone }

/-- The last pass ends on an empty ring: the drainer has taken all that it knows of, and
it knows all of `tail`. -/
theorem tryPop {pass : Pass} {a : Ring.PopAct} {ring : Ring.State w α}
    (h : Sound panicAt s) (hpc : s.drainer = .popping pass) (hpop : PopStep s.ring a ring) :
    Sound panicAt { s with ring := ring, drainer := afterPop pass s.ring.consumer a } := by
  obtain ⟨hproducer, haccepted, hrejected⟩ := hpop.frame
  have htail : ring.inner.tail = s.ring.inner.tail := by cases hpop <;> rfl
  have hoffered : ring.offered = s.ring.offered := by cases hpop <;> rfl
  have hdrained : s.drained = s.ring.popped := by
    have := h.popped
    rw [hpc] at this
    simpa [DrainerPc.inHand] using this
  have hcounters := h.counters.popStep hpop
  refine
    { counters := hcounters
      results_events := by rw [hproducer, hoffered]; exact h.results_events
      results_true := by rw [haccepted]; exact h.results_true
      popped := by rw [hdrained]; exact (afterPop_popped hpop pass).symm
      shutdown := by rw [htail]; exact h.shutdown
      producer_idle := fun hne => hproducer.trans (h.producer_idle hne)
      consumer_idle := fun hne => afterPop_consumer hpop hne
      last := ?_, exited := ?_, panicked := ?_, joined := ?_ }
  · intro hlast
    obtain rfl := afterPop_inLast hlast
    obtain ⟨hlogger, hseen⟩ := h.last (by rw [hpc]; rfl)
    refine ⟨hlogger, ?_⟩
    rw [htail]
    have hle := hcounters.seenTail_le
    rw [htail] at hle
    refine le_antisymm hle (hseen ▸ ?_)
    cases hpop with
    | empty _ hplace => exact hplace
    | ready _ hplace => exact hplace
    | _ => exact le_rfl
  · intro hexit
    cases hpop with
    | returnNone hempty =>
      cases pass with
      | poll drained => simp [hempty, afterPop] at hexit
      | last =>
        have hok := h.counters.consumer_ok
        rw [hempty] at hok
        exact hok.trans (h.last (by rw [hpc]; rfl)).2
    | _ => simp_all [afterPop]
  · intro hpanic
    cases hpop <;> cases pass <;> simp_all [afterPop]
  · intro hdrop
    have := h.joined hdrop
    simp [hpc] at this

/-- The drainer goes on outside `try_pop`: nothing in hand is lost, it learns nothing of the
flag, and a panic is the one that is due. -/
theorem goOn {drainer : DrainerPc α} {drained : List α} (h : Sound panicAt s)
    (hout : ∀ pass, s.drainer ≠ .popping pass)
    (hthere : s.drainer ≠ .exited ∧ s.drainer ≠ .panicked)
    (hpopped : drained ++ drainer.inHand = s.drained ++ s.drainer.inHand)
    (hlast : drainer.InLast → s.drainer.InLast) (hstay : drainer ≠ .exited)
    (hpanic : drainer = .panicked → panicAt = some drained.length) :
    Sound panicAt { s with drainer := drainer, drained := drained } :=
  { h with
    popped := hpopped.trans h.popped
    consumer_idle := fun _ => h.consumer_idle hout
    last := fun hin => h.last (hlast hin)
    exited := fun hexit => absurd hexit hstay
    panicked := hpanic
    joined := fun hdrop => by
      rcases h.joined hdrop with hexit | hpanicked
      · exact absurd hexit hthere.1
      · exact absurd hpanicked hthere.2 }

theorem drainOne {pass : Pass} {event : α} (h : Sound panicAt s)
    (hpc : s.drainer = .received pass event) :
    Sound panicAt { s with drainer := .draining pass, drained := s.drained ++ [event] } := by
  refine h.goOn (by simp [hpc]) (by simp [hpc]) ?_ ?_ nofun nofun
  · rw [hpc]
    exact List.append_nil _
  · intro hlast
    rw [hpc]
    exact hlast

theorem drainOneReturns {pass : Pass} (h : Sound panicAt s) (hpc : s.drainer = .draining pass) :
    Sound panicAt { s with drainer := .popping pass.next } := by
  refine h.goOn (by simp [hpc]) (by simp [hpc]) ?_ ?_ nofun nofun
  · rw [hpc]
    rfl
  · intro hlast
    rw [hpc]
    cases pass with
    | poll drained => cases hlast
    | last => rfl

theorem panic {pass : Pass} (h : Sound panicAt s) (hpc : s.drainer = .draining pass)
    (hpanic : panicAt = some s.drained.length) :
    Sound panicAt { s with drainer := .panicked } := by
  refine h.goOn (by simp [hpc]) (by simp [hpc]) ?_ nofun nofun fun _ => hpanic
  rw [hpc]
  rfl

/-- The load of the flag, whatever it returns. -/
theorem loadShutdown {place view : ℕ} {drained flag : Bool} {drainer : DrainerPc α}
    (h : Sound panicAt s) (hpc : s.drainer = .checking drained)
    (hread : s.shutdown.read place = some (flag, view))
    (hnext : drainer = .popping .last ∧ flag = true ∨ drainer = .popping (.poll false) ∨
      drainer = .sleeping) :
    Sound panicAt
      { s with ring := observeTail s.ring view, seenShutdown := place, drainer := drainer } := by
  have hidle : s.ring.consumer = .idle := h.consumer_idle (by simp [hpc])
  obtain ⟨hview, htrue⟩ := h.view_le hread
  exact
    { h with
      counters := counters_observeTail h.counters hview hidle
      popped := by
        have := h.popped
        rw [hpc] at this
        rcases hnext with ⟨rfl, -⟩ | rfl | rfl <;> exact this
      consumer_idle := fun _ => hidle
      last := fun hlast => by
        rcases hnext with ⟨rfl, hflag⟩ | rfl | rfl
        · obtain ⟨hlogger, rfl⟩ := htrue hflag
          exact ⟨hlogger, max_eq_right h.counters.seenTail_le⟩
        · cases hlast
        · cases hlast
      exited := fun hexit => by
        rcases hnext with ⟨rfl, -⟩ | rfl | rfl <;> cases hexit
      panicked := fun hpanic => by
        rcases hnext with ⟨rfl, -⟩ | rfl | rfl <;> cases hpanic
      joined := fun hdrop => by
        have := h.joined hdrop
        simp [hpc] at this }

theorem sleep (h : Sound panicAt s) (hpc : s.drainer = .sleeping) :
    Sound panicAt { s with drainer := .popping (.poll false) } := by
  refine h.goOn (by simp [hpc]) (by simp [hpc]) ?_ nofun nofun nofun
  rw [hpc]
  rfl

/-- **Step lemma.** -/
theorem step {a : Act α} (h : Sound panicAt s) (hstep : LogSink.step panicAt s a = some t) :
    Sound panicAt t := by
  cases step_cases hstep with
  | log hlogger hpush => exact h.log hlogger hpush
  | storeShutdown hlogger hidle => exact h.storeShutdown hlogger hidle
  | join hlogger hdone => exact h.join hlogger hdone
  | tryPop hpc hpop => exact h.tryPop hpc hpop
  | drainOne hpc => exact h.drainOne hpc
  | panic hpc hpanic => exact h.panic hpc hpanic
  | drainOneReturns hpc hpanic => exact h.drainOneReturns hpc
  | seesShutdown hpc hseen hread => exact h.loadShutdown hpc hread (.inl ⟨rfl, rfl⟩)
  | @seesRunning drained place view hpc hseen hread =>
    refine h.loadShutdown hpc hread (.inr ?_)
    cases drained with
    | true => exact .inl rfl
    | false => exact .inr rfl
  | sleep hpc => exact h.sleep hpc

end Sound

theorem Sound.reaches {panicAt : Option ℕ} {s t : State w α} (hs : Sound panicAt s)
    (hreach : Transition.Reaches (LogSink.step panicAt) s t) : Sound panicAt t :=
  hreach.invariant (fun _ _ _ h hstep => h.step hstep) hs

theorem Sound.of_new {panicAt : Option ℕ} {capacity : BitVec w} {s₀ : State w α}
    (hnew : new capacity = .ok s₀) : Sound panicAt s₀ := by
  obtain ⟨inner, hch, rfl⟩ := new_eq_ok hnew
  exact .start (.of_channel hch)

section Ring

variable {panicAt : Option ℕ} {s t : State w α}

/-- A step of the sink takes a step of the ring, makes `tail` visible or leaves the ring. -/
theorem Step.ring_cases {a : Act α} (h : Step panicAt s a t) :
    t.ring = s.ring ∨ (∃ b, Ring.step s.ring b = some t.ring) ∨
      ∃ place, t.ring = observeTail s.ring place := by
  cases h with
  | @log a ring hlogger hpush => exact .inr (.inl ⟨.push a, Ring.pushStep_eq_some_iff.mpr hpush⟩)
  | @tryPop pass a ring hpc hpop =>
    exact .inr (.inl ⟨.pop a, Ring.popStep_eq_some_iff.mpr hpop⟩)
  | @seesShutdown _ _ view => exact .inr (.inr ⟨view, rfl⟩)
  | @seesRunning _ _ view => exact .inr (.inr ⟨view, rfl⟩)
  | _ => exact .inl rfl

theorem Step.capacity_eq {a : Act α} (h : Step panicAt s a t) :
    t.ring.inner.capacity = s.ring.inner.capacity := by
  rcases h.ring_cases with heq | ⟨b, hb⟩ | ⟨place, heq⟩
  · rw [heq]
  · exact Ring.step_capacity hb
  · rw [heq]
    rfl

theorem Step.noCollision {a : Act α} (h : Step panicAt s a t) (hno : NoCollision t.ring) :
    NoCollision s.ring := by
  rcases h.ring_cases with heq | ⟨b, hb⟩ | ⟨place, heq⟩
  · rwa [← heq]
  · exact .of_step hb hno
  · rw [heq] at hno
    exact hno

theorem Step.slots {a : Act α} (h : Step panicAt s a t) (hc : Counters s.ring)
    (hno : NoCollision s.ring) (hs : Slots s.ring) : Slots t.ring := by
  rcases h.ring_cases with heq | ⟨b, hb⟩ | ⟨place, heq⟩
  · rwa [heq]
  · exact hs.step hc hno hb
  · rw [heq]
    exact ⟨hs.holds, hs.initialised⟩

/-- **Run lemma**: a run without collisions keeps both threads and the ring in order. -/
theorem sound_of_reaches {inner : Ring.Inner w α} {capacity : BitVec w}
    (hch : Ring.channel capacity = .ok inner)
    (hreach : Transition.Reaches (step panicAt) (.start inner) s) (hno : NoCollision s.ring) :
    Sound panicAt s ∧ Slots s.ring := by
  refine hreach.guarded_invariant (G := fun u => NoCollision u.ring)
    (I := fun u => Sound panicAt u ∧ Slots u.ring) ?_ ?_ (fun _ => ⟨.start ?_, ?_⟩) hno
  · intro u a v hstep hv
    exact (step_cases hstep).noCollision hv
  · rintro u a v hu _ ⟨hsound, hslots⟩ hstep
    exact ⟨hsound.step hstep, (step_cases hstep).slots hsound.counters hu hslots⟩
  · exact .of_channel hch
  · exact .of_channel hch

theorem capacity_of_reaches {inner : Ring.Inner w α}
    (hreach : Transition.Reaches (step panicAt) (.start inner) s) :
    s.ring.inner.capacity = inner.capacity := by
  refine hreach.invariant (I := fun u => u.ring.inner.capacity = inner.capacity) ?_ rfl
  intro u a v hu hstep
  rw [(step_cases hstep).capacity_eq, hu]

/-- A ring whose indices meet holds nothing: everything accepted has been popped. -/
theorem popped_eq_accepted {r : Ring.State w α} (hs : Slots r) (hc : Counters r)
    (hempty : r.inner.head.count = r.inner.tail.count) : r.popped = r.accepted := by
  have heq := hs.live_eq hc
  have hlen := congrArg List.length heq
  simp only [List.length_append, List.length_map, hc.popped_length, hc.accepted_length,
    hempty] at hlen
  have hnil : r.live = [] := List.eq_nil_of_length_eq_zero (by omega)
  rw [hnil, List.append_nil] at heq
  exact List.map_injective_iff.mpr (Option.some_injective α) heq

end Ring

/-- **The flush protocol.** When `LogSink::drop` has returned, `drain_one` has been called on
exactly the events for which `log` returned true, in the order they were logged; no event
for which `log` returned false was among them. -/
theorem flushed {capacity : BitVec w} {s₀ s : State w α} (hnew : new capacity = .ok s₀)
    (hreach : Transition.Reaches (step none) s₀ s) (hdrop : s.logger = .dropped)
    (hno : capacity.toNat ∣ 2 ^ w ∨ s.ring.accepted.length < 2 ^ w) :
    s.drained = (s.results.filter Prod.snd).map Prod.fst ∧
      s.results.map Prod.fst = s.ring.offered ∧
      (s.ring.offered.Nodup → ∀ event, (event, false) ∈ s.results → event ∉ s.drained) := by
  obtain ⟨inner, hch, rfl⟩ := new_eq_ok hnew
  have hcap : s.ring.inner.capacity = capacity :=
    (capacity_of_reaches hreach).trans (Ring.channel_eq_ok hch).2.1
  have hno' : NoCollision s.ring := by rwa [NoCollision, hcap]
  obtain ⟨hsound, hslots⟩ := sound_of_reaches hch hreach hno'
  have hexit : s.drainer = .exited := by
    rcases hsound.joined hdrop with hexit | hpanic
    · exact hexit
    · exact absurd (hsound.panicked hpanic) (by simp)
  have hdrained : s.drained = s.ring.popped := by
    have := hsound.popped
    rw [hexit] at this
    simpa [DrainerPc.inHand] using this
  have hevents : s.results.map Prod.fst = s.ring.offered := by
    have := hsound.results_events
    rwa [hsound.producer_idle (by simp [hdrop]), PushPc.offering, List.append_nil] at this
  have hall : s.drained = (s.results.filter Prod.snd).map Prod.fst := by
    rw [hdrained, popped_eq_accepted hslots hsound.counters (hsound.exited hexit),
      hsound.results_true]
  refine ⟨hall, hevents, ?_⟩
  intro hnodup event hfalse htrue
  -- distinct events have one result each
  rw [hall] at htrue
  obtain ⟨⟨event', flag⟩, hmem, rfl⟩ := List.mem_map.mp htrue
  obtain ⟨hmem, hflag⟩ := List.mem_filter.mp hmem
  have hinj := List.inj_on_of_nodup_map (hevents ▸ hnodup) hmem hfalse rfl
  exact Bool.noConfusion (hflag.symm.trans (congrArg Prod.snd hinj))

/-- The last event is logged behind the drainer's last look at the ring, the third one is
refused, and the drainer misses the flag once. -/
theorem flushed_behind_the_last_poll :
    ∃ s₀ : State 2 ℕ, new 2#2 = .ok s₀ ∧ ∃ s,
      Transition.run (step none) s₀
        [.log (.loadTail 7), .log (.loadHead 0), .log .write, .log .storeTail,
          .tryPop .loadHead, .tryPop (.loadTail 0), .tryPop .returnNone,
          .log (.loadTail 8), .log (.loadHead 0), .log .write, .log .storeTail,
          .log (.loadTail 9), .log (.loadHead 0), .log .returnErr, .storeShutdown,
          .loadShutdown 0, .sleep, .tryPop .loadHead, .tryPop (.loadTail 1), .tryPop .read,
          .tryPop .storeHead, .drainOne, .drainOneReturns, .tryPop .loadHead,
          .tryPop (.loadTail 1), .tryPop .returnNone, .loadShutdown 1, .tryPop .loadHead,
          .tryPop (.loadTail 2), .tryPop .read, .tryPop .storeHead, .drainOne,
          .drainOneReturns, .tryPop .loadHead, .tryPop (.loadTail 2), .tryPop .returnNone,
          .join] = some s ∧
      s.logger = .dropped ∧ s.results = [(7, true), (8, true), (9, false)] ∧
      s.drained = (s.results.filter Prod.snd).map Prod.fst := by
  refine ⟨_, rfl, ?s, ?run, ?_, ?_,
    (flushed (by rfl : new 2#2 = _) (.of_run ?run) ?_ (.inl (by decide))).1⟩
  case run => rfl
  all_goals rfl

end LogSink
