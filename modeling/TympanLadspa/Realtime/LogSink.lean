import TympanLadspa.Realtime.Ring

/-!
# The log sink

The model of `realtime/log.rs`: a producer that logs, and at its end stores the
shutdown flag and joins; a drainer thread that polls the ring and passes every
event to `drain_one`.

An entry of the shutdown flag carries the place of `tail` its writer had reached:
a load that returns the entry makes every earlier push visible.
-/

namespace LogSink

open Ring (PushPc PopPc PushAct PopAct pushStep popStep PushStep PopStep)

variable {w : ℕ} {α : Type*}

/-- Which of the two `while let` loops the drainer is in; the first one has the local
`drained`. -/
inductive Pass
  | poll (drained : Bool)
  | last
deriving Repr, DecidableEq

/-- The pass after a `drain_one` has returned. -/
def Pass.next : Pass → Pass
  | .poll _ => .poll true
  | .last => .last

/-- Where the drainer stands in `drainer_loop`. -/
inductive DrainerPc (α : Type*)
  | popping (pass : Pass)
  | received (pass : Pass) (event : α)
  | draining (pass : Pass)
  | checking (drained : Bool)
  | sleeping
  | exited
  | panicked
deriving Repr, DecidableEq

/-- Where the logging thread stands: alive, inside `LogSink::drop` behind the store of
the flag, or past it. -/
inductive LoggerPc
  | running
  | joining
  | dropped
deriving Repr, DecidableEq

inductive Act (α : Type*)
  | log (a : PushAct α)
  | storeShutdown
  | join
  | tryPop (a : PopAct)
  | drainOne
  | drainOneReturns
  | loadShutdown (place : ℕ)
  | sleep
deriving Repr, DecidableEq

def Act.isJoin : Act α → Bool
  | join => true
  | _ => false

/-- A sink and its drainer. `results` are the values `log` has returned, `drained` the
events `drain_one` has been called on; no step but the panic of `drain_one` reads them. -/
structure State (w : ℕ) (α : Type*) where
  ring : Ring.State w α
  shutdown : Location (Bool × ℕ)
  seenShutdown : ℕ
  logger : LoggerPc
  drainer : DrainerPc α
  results : List (α × Bool)
  drained : List α

/-- A sink on the given storage whose drainer has just been spawned. -/
def State.start (inner : Ring.Inner w α) : State w α :=
  { ring := .start inner, shutdown := .new (false, 0), seenShutdown := 0, logger := .running
    drainer := .popping (.poll false), results := [], drained := [] }

/-- `LogSink::new`. -/
def new (capacity : BitVec w) : Except String (State w α) :=
  (Ring.channel capacity).map State.start

theorem new_eq_ok {capacity : BitVec w} {s : State w α} (h : new capacity = .ok s) :
    ∃ inner, Ring.channel capacity = .ok inner ∧ s = .start inner := by
  unfold new at h
  cases hch : (Ring.channel capacity : Except String (Ring.Inner w α)) with
  | error e =>
    rw [hch] at h
    cases h
  | ok inner =>
    rw [hch] at h
    cases h
    exact ⟨inner, rfl, rfl⟩

/-- What `log` returns in a step of `try_push`, if it returns there. -/
def logged : PushPc w α → PushAct α → List (α × Bool)
  | .full value, .returnErr => [(value, false)]
  | .written value _, .storeTail => [(value, true)]
  | _, _ => []

/-- Where the drainer goes in a step of `try_pop`. -/
def afterPop (pass : Pass) : PopPc w α → PopAct → DrainerPc α
  | .taken value _, .storeHead => .received pass value
  | .empty, .returnNone =>
    match pass with
    | .poll drained => .checking drained
    | .last => .exited
  | _, _ => .popping pass

/-- An acquire that makes the stores of `tail` up to `place` visible. -/
def observeTail (s : Ring.State w α) (place : ℕ) : Ring.State w α :=
  { s with seenTail := max s.seenTail place }

/-- One step of either thread. `panicAt` is the call in which `drain_one` panics. -/
def step (panicAt : Option ℕ) (s : State w α) : Act α → Option (State w α)
  | .log a =>
    match s.logger with
    | .running =>
      (pushStep s.ring a).map fun ring =>
        { s with ring := ring, results := s.results ++ logged s.ring.producer a }
    | _ => none
  | .storeShutdown =>
    match s.logger, s.ring.producer with
    | .running, .idle =>
      some { s with
        shutdown := s.shutdown.store (true, s.ring.inner.tail.count)
        logger := .joining }
    | _, _ => none
  | .join =>
    match s.logger, s.drainer with
    | .joining, .exited => some { s with logger := .dropped }
    | .joining, .panicked => some { s with logger := .dropped }
    | _, _ => none
  | .tryPop a =>
    match s.drainer with
    | .popping pass =>
      (popStep s.ring a).map fun ring =>
        { s with ring := ring, drainer := afterPop pass s.ring.consumer a }
    | _ => none
  | .drainOne =>
    match s.drainer with
    | .received pass event =>
      some { s with drainer := .draining pass, drained := s.drained ++ [event] }
    | _ => none
  | .drainOneReturns =>
    match s.drainer with
    | .draining pass =>
      some { s with
        drainer := if panicAt = some s.drained.length then .panicked else .popping pass.next }
    | _ => none
  | .loadShutdown place =>
    match s.drainer with
    | .checking drained =>
      if s.seenShutdown ≤ place then
        (s.shutdown.read place).map fun entry =>
          { s with
            ring := observeTail s.ring entry.2
            seenShutdown := place
            drainer :=
              if entry.1 then .popping .last
              else if drained then .popping (.poll false) else .sleeping }
      else none
    | _ => none
  | .sleep =>
    match s.drainer with
    | .sleeping => some { s with drainer := .popping (.poll false) }
    | _ => none

/-- A load returns the current value. -/
def Current (s : State w α) : Act α → Prop
  | .log (.loadHead place) => place = s.ring.inner.head.count
  | .tryPop (.loadTail place) => place = s.ring.inner.tail.count
  | .loadShutdown place => place = s.shutdown.count
  | _ => True

instance (s : State w α) (a : Act α) : Decidable (Current s a) :=
  match a with
  | .log (.loadHead place) => inferInstanceAs (Decidable (place = s.ring.inner.head.count))
  | .tryPop (.loadTail place) => inferInstanceAs (Decidable (place = s.ring.inner.tail.count))
  | .loadShutdown place => inferInstanceAs (Decidable (place = s.shutdown.count))
  | .log (.loadTail _) | .log .returnErr | .log .write | .log .storeTail => isTrue trivial
  | .tryPop .loadHead | .tryPop .returnNone | .tryPop .read | .tryPop .storeHead => isTrue trivial
  | .storeShutdown | .join | .drainOne | .drainOneReturns | .sleep => isTrue trivial

/-- The sink and its drainer on current loads. -/
def stepCurrent (panicAt : Option ℕ) : State w α → Act α → Option (State w α) :=
  Transition.restrict Current (step panicAt)

/-- The steps of the sink, one constructor for each outcome. -/
inductive Step (panicAt : Option ℕ) (s : State w α) : Act α → State w α → Prop
  | log {a : PushAct α} {ring : Ring.State w α} (hlogger : s.logger = .running)
      (hpush : PushStep s.ring a ring) :
      Step panicAt s (.log a)
        { s with ring := ring, results := s.results ++ logged s.ring.producer a }
  | storeShutdown (hlogger : s.logger = .running) (hidle : s.ring.producer = .idle) :
      Step panicAt s .storeShutdown
        { s with
          shutdown := s.shutdown.store (true, s.ring.inner.tail.count)
          logger := .joining }
  | join (hlogger : s.logger = .joining) (hdone : s.drainer = .exited ∨ s.drainer = .panicked) :
      Step panicAt s .join { s with logger := .dropped }
  | tryPop {pass : Pass} {a : PopAct} {ring : Ring.State w α}
      (hpc : s.drainer = .popping pass) (hpop : PopStep s.ring a ring) :
      Step panicAt s (.tryPop a)
        { s with ring := ring, drainer := afterPop pass s.ring.consumer a }
  | drainOne {pass : Pass} {event : α} (hpc : s.drainer = .received pass event) :
      Step panicAt s .drainOne
        { s with drainer := .draining pass, drained := s.drained ++ [event] }
  | panic {pass : Pass} (hpc : s.drainer = .draining pass)
      (hpanic : panicAt = some s.drained.length) :
      Step panicAt s .drainOneReturns { s with drainer := .panicked }
  | drainOneReturns {pass : Pass} (hpc : s.drainer = .draining pass)
      (hpanic : panicAt ≠ some s.drained.length) :
      Step panicAt s .drainOneReturns { s with drainer := .popping pass.next }
  | seesShutdown {drained : Bool} {place view : ℕ} (hpc : s.drainer = .checking drained)
      (hseen : s.seenShutdown ≤ place) (hread : s.shutdown.read place = some (true, view)) :
      Step panicAt s (.loadShutdown place)
        { s with
          ring := observeTail s.ring view, seenShutdown := place, drainer := .popping .last }
  | seesRunning {drained : Bool} {place view : ℕ} (hpc : s.drainer = .checking drained)
      (hseen : s.seenShutdown ≤ place) (hread : s.shutdown.read place = some (false, view)) :
      Step panicAt s (.loadShutdown place)
        { s with
          ring := observeTail s.ring view
          seenShutdown := place
          drainer := if drained then .popping (.poll false) else .sleeping }
  | sleep (hpc : s.drainer = .sleeping) :
      Step panicAt s .sleep { s with drainer := .popping (.poll false) }

theorem step_cases {panicAt : Option ℕ} {s t : State w α} {a : Act α}
    (h : step panicAt s a = some t) : Step panicAt s a t := by
  cases a with
  | log a =>
    simp only [step] at h
    split at h
    · next hlogger =>
      obtain ⟨ring, hring, rfl⟩ := Option.map_eq_some_iff.mp h
      exact .log hlogger (Ring.pushStep_eq_some_iff.mp hring)
    · cases h
  | storeShutdown =>
    simp only [step] at h
    split at h
    · next hlogger hidle => cases h; exact .storeShutdown hlogger hidle
    · cases h
  | join =>
    simp only [step] at h
    split at h
    · next hlogger hdone => cases h; exact .join hlogger (.inl hdone)
    · next hlogger hdone => cases h; exact .join hlogger (.inr hdone)
    · cases h
  | tryPop a =>
    simp only [step] at h
    split at h
    · next hpc =>
      obtain ⟨ring, hring, rfl⟩ := Option.map_eq_some_iff.mp h
      exact .tryPop hpc (Ring.popStep_eq_some_iff.mp hring)
    · cases h
  | drainOne =>
    simp only [step] at h
    split at h
    · next hpc => cases h; exact .drainOne hpc
    · cases h
  | drainOneReturns =>
    simp only [step] at h
    split at h
    · next hpc =>
      cases h
      split
      · next hpanic => exact .panic hpc hpanic
      · next hpanic => exact .drainOneReturns hpc hpanic
    · cases h
  | loadShutdown place =>
    simp only [step] at h
    split at h
    · next hpc =>
      split at h
      · next hseen =>
        obtain ⟨⟨flag, view⟩, hread, rfl⟩ := Option.map_eq_some_iff.mp h
        cases flag with
        | true => exact .seesShutdown hpc hseen hread
        | false => exact .seesRunning hpc hseen hread
      · cases h
    · cases h
  | sleep =>
    simp only [step] at h
    split at h
    · next hpc => cases h; exact .sleep hpc
    · cases h

end LogSink
