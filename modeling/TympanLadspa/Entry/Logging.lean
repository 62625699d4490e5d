import TympanLadspa.Entry.Session
import TympanLadspa.Port.Logged
import TympanLadspa.Realtime.LogLatency
import TympanLadspa.Realtime.RingWaitFree

/-!
# A plugin that owns a log sink

One instance, the audio thread of its host and the drainer thread of its sink. A run goes on
operation by operation, and a call of `log` by the steps of `try_push`, with the drainer at
work in between. Behind all that the plugin goes by the calls of its host one after the other,
as if there were no drainer, and the sink is offered the events of the runs in order.
-/

namespace Entry

open Port (LogProg Memory Panic)
open Ring (PushAct)

/-- A plugin whose runs log, with its state but for the sink. -/
structure LoggingPlugin (α ε σ : Type) where
  activate : σ → σ := id
  run : σ → ℕ → LogProg α ε σ
  deactivate : σ → σ := id

variable {α ε σ : Type} {w : ℕ}

/-- What the calls so far have come to: the plugin, the events it has logged, and the memory
behind each run. -/
structure History (α ε σ : Type) where
  plugin : σ
  events : List ε
  memories : List (Memory α)

/-- One call after the other; `none` when a run panics. -/
def LoggingPlugin.visit (P : LoggingPlugin α ε σ) (h : History α ε σ) :
    Visit α → Option (History α ε σ)
  | .activate => some { h with plugin := P.activate h.plugin }
  | .run c =>
    match (P.run h.plugin c.ports.frames).exec c.ports c.memory with
    | .error _ => none
    | .ok (plugin, events, memory) =>
      some
        { plugin := plugin, events := h.events ++ events, memories := h.memories ++ [memory] }
  | .deactivate => some { h with plugin := P.deactivate h.plugin }

/-- The events of a call, when those of a run are known from what it starts from. -/
def Visit.events (events : Cycle α → List ε) : Visit α → List ε
  | .run c => events c
  | .activate | .deactivate => []

/-- The plugin behind a call, and the memory behind each run so far. -/
def Plugin.attend (Q : Plugin α σ) (s : σ × List (Memory α)) :
    Visit α → Option (σ × List (Memory α))
  | .activate => some (Q.activate s.1, s.2)
  | .run c =>
    match Q.cycle s.1 c with
    | .error _ => none
    | .ok (plugin, memory) => some (plugin, s.2 ++ [memory])
  | .deactivate => some (Q.deactivate s.1, s.2)

/-- `Q` is the plugin without its log. -/
structure LoggingPlugin.Mutes (P : LoggingPlugin α ε σ) (Q : Plugin α σ) : Prop where
  activate : Q.activate = P.activate
  run : ∀ state frames,
    Port.Prog.Interprets (fun state' _ => state') (Q.run state frames) (P.run state frames)
  deactivate : Q.deactivate = P.deactivate

namespace LoggingPlugin

variable {P : LoggingPlugin α ε σ} {h h' : History α ε σ} {vs : List (Visit α)}

/-- **A log has no part** in what a plugin does. -/
theorem Mutes.attend {Q : Plugin α σ} (hQ : P.Mutes Q)
    (hrun : Transition.run P.visit h vs = some h') :
    Transition.run Q.attend (h.plugin, h.memories) vs = some (h'.plugin, h'.memories) := by
  induction vs generalizing h with
  | nil =>
    cases hrun
    rfl
  | cons v vs ih =>
    obtain ⟨mid, hmid, hrest⟩ := Transition.run_cons_eq_some.mp hrun
    refine Transition.run_cons_eq_some.mpr ⟨(mid.plugin, mid.memories), ?_, ih hrest⟩
    cases v with
    | activate =>
      cases hmid
      exact congrArg (fun f => some (f h.plugin, h.memories)) hQ.activate
    | run c =>
      have hcycle := hQ.run h.plugin c.ports.frames c.ports c.memory
      rw [visit] at hmid
      rw [Plugin.attend, Plugin.cycle, hcycle]
      split at hmid
      · cases hmid
      · next hexec =>
        cases hmid
        rw [hexec]
        rfl
    | deactivate =>
      cases hmid
      exact congrArg (fun f => some (f h.plugin, h.memories)) hQ.deactivate

/-- The events of a history are those of its calls. -/
theorem visit_events (events : Cycle α → List ε)
    (hevents : ∀ state c x,
      (P.run state c.ports.frames).exec c.ports c.memory = .ok x → x.2.1 = events c)
    (hrun : Transition.run P.visit h vs = some h') :
    h'.events = h.events ++ vs.flatMap (Visit.events events) := by
  induction vs generalizing h with
  | nil =>
    cases hrun
    exact (List.append_nil _).symm
  | cons v vs ih =>
    obtain ⟨mid, hmid, hrest⟩ := Transition.run_cons_eq_some.mp hrun
    rw [ih hrest, List.flatMap_cons, ← List.append_assoc]
    congr 1
    cases v with
    | activate =>
      cases hmid
      exact (List.append_nil _).symm
    | run c =>
      rw [visit] at hmid
      split at hmid
      · cases hmid
      · next hexec =>
        cases hmid
        exact congrArg (h.events ++ ·) (hevents _ _ _ hexec)
    | deactivate =>
      cases hmid
      exact (List.append_nil _).symm

end LoggingPlugin

/-- A run on the audio thread. -/
structure Running (α ε σ : Type) where
  cycle : Cycle α
  rest : LogProg α ε σ
  memory : Memory α

/-- A run that is behind its call of `log`, once that has returned. -/
def Running.after (r : Running α ε σ) (next : LogProg α ε σ) :
    Ring.PushPc w ε → Running α ε σ
  | .idle => { r with rest := next }
  | _ => r

/-- The instance, its sink with the drainer, and the memory behind each run so far. -/
structure Hosted (w : ℕ) (α ε σ : Type) where
  plugin : σ
  running : Option (Running α ε σ)
  memories : List (Memory α)
  sink : LogSink.State w ε

namespace Hosted

/-- The steps of the audio thread, and those of the drainer. `cleanup` and `join` are those of
`LogSink::drop`. -/
inductive Act (α ε : Type)
  | visit (v : Visit α)
  | operate
  | log (a : PushAct Unit)
  | leave
  | cleanup
  | join
  | drainer (a : LogSink.Act ε)

/-- A step of the call of `log` on an event. -/
def pushAct (event : ε) : PushAct Unit → PushAct ε
  | .loadTail _ => .loadTail event
  | .loadHead place => .loadHead place
  | .returnErr => .returnErr
  | .write => .write
  | .storeTail => .storeTail

/-- A call of the host: a run is entered, the others are done at once. -/
def enter (P : LoggingPlugin α ε σ) (s : Hosted w α ε σ) : Visit α → Hosted w α ε σ
  | .activate => { s with plugin := P.activate s.plugin }
  | .run c => { s with running := some ⟨c, P.run s.plugin c.ports.frames, c.memory⟩ }
  | .deactivate => { s with plugin := P.deactivate s.plugin }

def step (P : LoggingPlugin α ε σ) (panicAt : Option ℕ) (s : Hosted w α ε σ) :
    Act α ε → Option (Hosted w α ε σ)
  | .visit v =>
    match s.running, s.sink.logger with
    | none, .running => some (s.enter P v)
    | _, _ => none
  | .operate =>
    match s.running with
    | some r =>
      (r.rest.next r.cycle.ports r.memory).map fun (rest, memory) =>
        { s with running := some { r with rest := rest, memory := memory } }
    | none => none
  | .log a =>
    match s.running with
    | some r =>
      match r.rest with
      | .log event next =>
        (LogSink.step panicAt s.sink (.log (pushAct event a))).map fun sink =>
          { s with sink := sink, running := some (r.after next sink.ring.producer) }
      | _ => none
    | none => none
  | .leave =>
    match s.running with
    | some r =>
      match r.rest with
      | .done plugin =>
        some { s with plugin := plugin, running := none, memories := s.memories ++ [r.memory] }
      | _ => none
    | none => none
  | .cleanup =>
    match s.running with
    | none => (LogSink.step panicAt s.sink .storeShutdown).map fun sink => { s with sink := sink }
    | some _ => none
  | .join => (LogSink.step panicAt s.sink .join).map fun sink => { s with sink := sink }
  | .drainer a =>
    if a.ofDrainer then (LogSink.step panicAt s.sink a).map fun sink => { s with sink := sink }
    else none

/-- `instantiate`, with a sink of the given capacity. -/
def start (plugin : σ) (sink : LogSink.State w ε) : Hosted w α ε σ :=
  { plugin := plugin, running := none, memories := [], sink := sink }

-- ════════════════════════════════════════════════════════════════════════
-- What a step can do
-- ════════════════════════════════════════════════════════════════════════

/-- The steps, one constructor for each. -/
inductive Step (P : LoggingPlugin α ε σ) (panicAt : Option ℕ) (s : Hosted w α ε σ) :
    Act α ε → Hosted w α ε σ → Prop
  | visit {v : Visit α} (hidle : s.running = none) (hlogger : s.sink.logger = .running) :
      Step P panicAt s (.visit v) (s.enter P v)
  | operate {r : Running α ε σ} {rest : LogProg α ε σ} {memory : Memory α}
      (hrunning : s.running = some r)
      (hnext : r.rest.next r.cycle.ports r.memory = some (rest, memory)) :
      Step P panicAt s .operate
        { s with running := some { r with rest := rest, memory := memory } }
  | log {r : Running α ε σ} {event : ε} {next : LogProg α ε σ} {a : PushAct Unit}
      {sink : LogSink.State w ε} (hrunning : s.running = some r) (hrest : r.rest = .log event next)
      (hsink : LogSink.step panicAt s.sink (.log (pushAct event a)) = some sink) :
      Step P panicAt s (.log a)
        { s with sink := sink, running := some (r.after next sink.ring.producer) }
  | leave {r : Running α ε σ} {plugin : σ} (hrunning : s.running = some r)
      (hrest : r.rest = .done plugin) :
      Step P panicAt s .leave
        { s with plugin := plugin, running := none, memories := s.memories ++ [r.memory] }
  | cleanup {sink : LogSink.State w ε} (hidle : s.running = none)
      (hsink : LogSink.step panicAt s.sink .storeShutdown = some sink) :
      Step P panicAt s .cleanup { s with sink := sink }
  | join {sink : LogSink.State w ε} (hsink : LogSink.step panicAt s.sink .join = some sink) :
      Step P panicAt s .join { s with sink := sink }
  | drainer {a : LogSink.Act ε} {sink : LogSink.State w ε} (ha : a.ofDrainer = true)
      (hsink : LogSink.step panicAt s.sink a = some sink) :
      Step P panicAt s (.drainer a) { s with sink := sink }

variable {P : LoggingPlugin α ε σ} {panicAt : Option ℕ} {s t : Hosted w α ε σ}

theorem step_cases {a : Act α ε} (h : step P panicAt s a = some t) : Step P panicAt s a t := by
  cases a with
  | visit v =>
    simp only [step] at h
    split at h
    · next hidle hlogger =>
      cases h
      exact .visit hidle hlogger
    · cases h
  | operate =>
    simp only [step] at h
    split at h
    · next r hrunning =>
      obtain ⟨⟨rest, memory⟩, hnext, rfl⟩ := Option.map_eq_some_iff.mp h
      exact .operate hrunning hnext
    · cases h
  | log a =>
    simp only [step] at h
    split at h
    · next r hrunning =>
      split at h
      · next event next hrest =>
        obtain ⟨sink, hsink, rfl⟩ := Option.map_eq_some_iff.mp h
        exact .log hrunning hrest hsink
      · cases h
    · cases h
  | leave =>
    simp only [step] at h
    split at h
    · next r hrunning =>
      split at h
      · next plugin hrest =>
        cases h
        exact .leave hrunning hrest
      · cases h
    · cases h
  | cleanup =>
    simp only [step] at h
    split at h
    · next hidle =>
      obtain ⟨sink, hsink, rfl⟩ := Option.map_eq_some_iff.mp h
      exact .cleanup hidle hsink
    · cases h
  | join =>
    obtain ⟨sink, hsink, rfl⟩ := Option.map_eq_some_iff.mp h
    exact .join hsink
  | drainer a =>
    simp only [step] at h
    split at h
    · next ha =>
      obtain ⟨sink, hsink, rfl⟩ := Option.map_eq_some_iff.mp h
      exact .drainer ha hsink
    · cases h

/-- The sink goes by steps of its own. -/
theorem Step.sink_cases {a : Act α ε} (h : Step P panicAt s a t) :
    t.sink = s.sink ∨ ∃ b, LogSink.step panicAt s.sink b = some t.sink := by
  cases h with
  | @visit v hidle hlogger =>
    left
    cases v <;> rfl
  | operate hrunning hnext => exact .inl rfl
  | log hrunning hrest hsink => exact .inr ⟨_, hsink⟩
  | leave hrunning hrest => exact .inl rfl
  | cleanup hidle hsink => exact .inr ⟨_, hsink⟩
  | join hsink => exact .inr ⟨_, hsink⟩
  | drainer ha hsink => exact .inr ⟨_, hsink⟩

theorem reaches_sink (h : Transition.Reaches (step P panicAt) s t) :
    Transition.Reaches (LogSink.step panicAt) s.sink t.sink := by
  refine h.invariant (I := fun u => Transition.Reaches (LogSink.step panicAt) s.sink u.sink) ?_
    (.refl _)
  intro u a v hu hstep
  rcases (step_cases hstep).sink_cases with hsame | ⟨b, hb⟩
  · rwa [hsame]
  · exact hu.trans (.single hb)

-- ════════════════════════════════════════════════════════════════════════
-- The calls of the host, one after the other
-- ════════════════════════════════════════════════════════════════════════

def Act.visits : Act α ε → List (Visit α)
  | visit v => [v]
  | _ => []

/-- What the calls so far have come to, with the last one perhaps still in progress: `es` are
the events it has logged, and what it still does leads where it does as a whole. -/
inductive Tracks (P : LoggingPlugin α ε σ) (h₀ : History α ε σ) :
    List (Visit α) → Hosted w α ε σ → Prop
  | idle {vs : List (Visit α)} {s : Hosted w α ε σ} {h : History α ε σ}
      (hrunning : s.running = none) (hhistory : Transition.run P.visit h₀ vs = some h)
      (hplugin : h.plugin = s.plugin) (hmemories : h.memories = s.memories)
      (hevents : h.events = s.sink.results.map Prod.fst)
      (hcall : s.sink.ring.producer = .idle) : Tracks P h₀ vs s
  | running {vs : List (Visit α)} {s : Hosted w α ε σ} {h : History α ε σ}
      {r : Running α ε σ} {c : Cycle α} {es : List ε} (hrunning : s.running = some r)
      (hcycle : r.cycle = c) (hhistory : Transition.run P.visit h₀ vs = some h)
      (hmemories : h.memories = s.memories)
      (hevents : h.events ++ es = s.sink.results.map Prod.fst)
      (hlogger : s.sink.logger = .running)
      (hexec : (P.run h.plugin c.ports.frames).exec c.ports c.memory =
        (r.rest.exec c.ports r.memory).map fun x => (x.1, es ++ x.2.1, x.2.2))
      (hcall : s.sink.ring.producer = .idle ∨ ∃ event next, r.rest = .log event next ∧
        s.sink.ring.producer.offering = [event]) :
      Tracks P h₀ (vs ++ [.run c]) s

/-- A step of the call of `log` on an event either ends the call, with a result for the event,
or goes on in it. -/
theorem pushAct_step {ring ring' : Ring.State w ε} {event : ε} {a : PushAct Unit}
    (h : Ring.PushStep ring (pushAct event a) ring')
    (hcall : ring.producer = .idle ∨ ring.producer.offering = [event]) :
    (ring'.producer = .idle ∧
        ∃ result, LogSink.logged ring.producer (pushAct event a) = [(event, result)]) ∨
      (ring'.producer ≠ .idle ∧ ring'.producer.offering = [event] ∧
        ring'.producer.made = ring.producer.made + 1 ∧
        LogSink.logged ring.producer (pushAct event a) = []) := by
  have hevent : ∀ value : ε, [value] = [event] → value = event :=
    fun _ h => List.head_eq_of_cons_eq h
  cases a with
  | loadTail _ =>
    cases h with
    | loadTail hpc =>
      rw [hpc]
      exact .inr ⟨nofun, rfl, rfl, rfl⟩
  | loadHead place =>
    cases h with
    | full hpc hseen hread hfull =>
      rw [hpc] at hcall ⊢
      exact .inr ⟨nofun, hcall.resolve_left nofun, rfl, rfl⟩
    | vacant hpc hseen hread hroom =>
      rw [hpc] at hcall ⊢
      exact .inr ⟨nofun, hcall.resolve_left nofun, rfl, rfl⟩
  | returnErr =>
    cases h with
    | returnErr hpc =>
      rw [hpc] at hcall ⊢
      obtain rfl := hevent _ (hcall.resolve_left nofun)
      exact .inl ⟨rfl, false, rfl⟩
  | write =>
    cases h with
    | write hpc =>
      rw [hpc] at hcall ⊢
      exact .inr ⟨nofun, hcall.resolve_left nofun, rfl, rfl⟩
  | storeTail =>
    cases h with
    | storeTail hpc =>
      rw [hpc] at hcall ⊢
      obtain rfl := hevent _ (hcall.resolve_left nofun)
      exact .inl ⟨rfl, true, rfl⟩

/-- The drainer does not touch what the audio thread has. -/
theorem drainer_frame {sink sink' : LogSink.State w ε} {a : LogSink.Act ε} (ha : a.ofDrainer = true)
    (h : LogSink.step panicAt sink a = some sink') :
    sink'.results = sink.results ∧ sink'.logger = sink.logger ∧
      sink'.ring.producer = sink.ring.producer := by
  cases LogSink.step_cases h with
  | tryPop hpc hpop => exact ⟨rfl, rfl, hpop.frame.1⟩
  | log hlogger hpush => cases ha
  | storeShutdown hlogger hidle => cases ha
  | join hlogger hdone => cases ha
  | _ => exact ⟨rfl, rfl, rfl⟩

/-- A step of `log` leaves the logging thread running, and adds what the call returns. -/
theorem log_cases {sink sink' : LogSink.State w ε} {a : PushAct ε}
    (h : LogSink.step panicAt sink (.log a) = some sink') :
    sink.logger = .running ∧ sink'.logger = .running ∧ Ring.PushStep sink.ring a sink'.ring ∧
      sink'.results = sink.results ++ LogSink.logged sink.ring.producer a := by
  cases LogSink.step_cases h with
  | log hlogger hpush => exact ⟨hlogger, hlogger, hpush, rfl⟩

theorem Running.after_of_ne {r : Running α ε σ} {next : LogProg α ε σ} {pc : Ring.PushPc w ε}
    (h : pc ≠ .idle) : r.after next pc = r := by
  cases pc with
  | idle => exact absurd rfl h
  | _ => rfl

namespace Tracks

variable {h₀ : History α ε σ} {vs : List (Visit α)}

theorem start (plugin : σ) {sink : LogSink.State w ε} (hresults : sink.results = [])
    (hcall : sink.ring.producer = .idle) :
    Tracks P ⟨plugin, [], []⟩ [] (start plugin sink) := by
  refine .idle rfl rfl rfl rfl ?_ hcall
  rw [Hosted.start, hresults]
  rfl

/-- The sink has gone on by itself. -/
theorem of_frame {sink : LogSink.State w ε} (h : Tracks P h₀ vs s)
    (hresults : sink.results = s.sink.results) (hlogger : sink.logger = s.sink.logger)
    (hproducer : sink.ring.producer = s.sink.ring.producer) :
    Tracks P h₀ vs { s with sink := sink } := by
  cases h with
  | idle hrunning hhistory hplugin hmemories hevents hcall =>
    exact .idle hrunning hhistory hplugin hmemories (hevents.trans (by rw [hresults]))
      (hproducer.trans hcall)
  | running hrunning hcycle hhistory hmemories hevents hlogger' hexec hcall =>
    refine .running hrunning hcycle hhistory hmemories (hevents.trans (by rw [hresults]))
      (hlogger.trans hlogger') hexec ?_
    rwa [hproducer]

/-- **Step.** -/
theorem step {a : Act α ε} (h : Tracks P h₀ vs s) (hstep : s.step P panicAt a = some t) :
    Tracks P h₀ (vs ++ a.visits) t := by
  cases step_cases hstep with
  | @visit v hidle hlogger =>
    cases h with
    | running hrunning => cases hidle.symm.trans hrunning
    | @idle vs s h hrunning hhistory hplugin hmemories hevents hcall =>
      cases v with
      | activate =>
        refine .idle hrunning (Transition.run_concat_eq_some.mpr ⟨h, hhistory, rfl⟩)
          (congrArg P.activate hplugin) hmemories hevents hcall
      | deactivate =>
        refine .idle hrunning (Transition.run_concat_eq_some.mpr ⟨h, hhistory, rfl⟩)
          (congrArg P.deactivate hplugin) hmemories hevents hcall
      | run c =>
        have hevents' : h.events ++ [] = s.sink.results.map Prod.fst := by
          rw [List.append_nil]
          exact hevents
        refine .running rfl rfl hhistory hmemories hevents' hlogger ?_ (.inl hcall)
        rw [hplugin]
        show _ = ((P.run s.plugin c.ports.frames).exec c.ports c.memory).map id
        rw [Except.map_id]
        rfl
  | operate hrunning hnext =>
    change Tracks P h₀ (vs ++ []) _
    rw [List.append_nil]
    cases h with
    | idle hidle => cases hidle.symm.trans hrunning
    | running hrunning' hcycle hhistory hmemories hevents hlogger hexec hcall =>
      cases hrunning'.symm.trans hrunning
      subst hcycle
      refine .running rfl rfl hhistory hmemories hevents hlogger ?_ ?_
      · rw [hexec, (LogProg.exec_next hnext).1]
      · rcases hcall with hcall | ⟨event, next, hrest, -⟩
        · exact .inl hcall
        · rw [hrest] at hnext
          cases hnext
  | @log r event next a sink hrunning hrest hsink =>
    change Tracks P h₀ (vs ++ []) _
    rw [List.append_nil]
    obtain ⟨hrun, hrun', hpush, hresults⟩ := log_cases hsink
    cases h with
    | idle hidle => cases hidle.symm.trans hrunning
    | @running vs s h r' c es hrunning' hcycle hhistory hmemories hevents hlogger hexec hcall =>
      cases hrunning'.symm.trans hrunning
      subst hcycle
      have hoffering : s.sink.ring.producer = .idle ∨
          s.sink.ring.producer.offering = [event] := by
        refine hcall.imp_right ?_
        rintro ⟨event', next', hrest', hoffering⟩
        cases hrest'.symm.trans hrest
        exact hoffering
      rcases pushAct_step hpush hoffering with
        ⟨hidle, result, hlogged⟩ | ⟨hne, hoffering', -, hlogged⟩
      · have hevents' : h.events ++ (es ++ [event]) = sink.results.map Prod.fst := by
          rw [hresults, hlogged, List.map_append, ← hevents, List.append_assoc]
          rfl
        rw [hidle]
        refine .running rfl rfl hhistory hmemories hevents' hrun' ?_ (.inl hidle)
        rw [hexec, hrest, LogProg.exec]
        show _ = (next.exec r.cycle.ports r.memory).map _
        cases next.exec r.cycle.ports r.memory with
        | error panic => rfl
        | ok x => simp [Except.map]
      · rw [Running.after_of_ne hne]
        refine .running rfl rfl hhistory hmemories ?_ hrun' hexec
          (.inr ⟨event, next, hrest, hoffering'⟩)
        rw [hresults, hlogged, List.append_nil]
        exact hevents
  | @leave r plugin hrunning hrest =>
    change Tracks P h₀ (vs ++ []) _
    rw [List.append_nil]
    cases h with
    | idle hidle => cases hidle.symm.trans hrunning
    | @running vs s h r' c es hrunning' hcycle hhistory hmemories hevents hlogger hexec hcall =>
      cases hrunning'.symm.trans hrunning
      subst hcycle
      rw [hrest] at hexec
      have hvisit : P.visit h (.run r.cycle) = some
          { plugin := plugin, events := h.events ++ es
            memories := h.memories ++ [r.memory] } := by
        rw [LoggingPlugin.visit, hexec, LogProg.exec]
        simp [Except.map]
      refine .idle rfl (Transition.run_concat_eq_some.mpr ⟨h, hhistory, hvisit⟩) rfl ?_ hevents ?_
      · rw [hmemories]
      · refine hcall.resolve_right ?_
        rintro ⟨event, next, hlog, -⟩
        cases hrest.symm.trans hlog
  | cleanup hidle hsink =>
    change Tracks P h₀ (vs ++ []) _
    rw [List.append_nil]
    cases h with
    | running hrunning => cases hidle.symm.trans hrunning
    | idle hrunning hhistory hplugin hmemories hevents hcall =>
      cases LogSink.step_cases hsink with
      | storeShutdown hlogger hproducer =>
        exact .idle hrunning hhistory hplugin hmemories hevents hproducer
  | join hsink =>
    change Tracks P h₀ (vs ++ []) _
    rw [List.append_nil]
    cases LogSink.step_cases hsink with
    | join hlogger hdone =>
      cases h with
      | running hrunning hcycle hhistory hmemories hevents hlogger' =>
        cases hlogger.symm.trans hlogger'
      | idle hrunning hhistory hplugin hmemories hevents hcall =>
        exact .idle hrunning hhistory hplugin hmemories hevents hcall
  | drainer ha hsink =>
    change Tracks P h₀ (vs ++ []) _
    rw [List.append_nil]
    obtain ⟨hresults, hlogger, hproducer⟩ := drainer_frame ha hsink
    exact h.of_frame hresults hlogger hproducer

/-- **Run.** -/
theorem run {as : List (Act α ε)} (h : Tracks P h₀ vs s)
    (hrun : Transition.run (Hosted.step P panicAt) s as = some t) :
    Tracks P h₀ (vs ++ as.flatMap Act.visits) t := by
  induction as generalizing vs s with
  | nil =>
    cases hrun
    rwa [List.flatMap_nil, List.append_nil]
  | cons a as ih =>
    obtain ⟨u, hu, hrest⟩ := Transition.run_cons_eq_some.mp hrun
    rw [List.flatMap_cons, ← List.append_assoc]
    exact ih (h.step hu) hrest

/-- Between two calls. -/
theorem of_idle (h : Tracks P h₀ vs s) (hidle : s.running = none) :
    ∃ h, Transition.run P.visit h₀ vs = some h ∧ h.plugin = s.plugin ∧
      h.memories = s.memories ∧ h.events = s.sink.results.map Prod.fst ∧
      s.sink.ring.producer = .idle := by
  cases h with
  | running hrunning => cases hidle.symm.trans hrunning
  | idle hrunning hhistory hplugin hmemories hevents hcall =>
    exact ⟨_, hhistory, hplugin, hmemories, hevents, hcall⟩

/-- Inside a run. -/
theorem of_running {r : Running α ε σ} (h : Tracks P h₀ vs s) (hrunning : s.running = some r) :
    ∃ vs' h es, vs = vs' ++ [.run r.cycle] ∧ Transition.run P.visit h₀ vs' = some h ∧
      (P.run h.plugin r.cycle.ports.frames).exec r.cycle.ports r.cycle.memory =
        (r.rest.exec r.cycle.ports r.memory).map fun x => (x.1, es ++ x.2.1, x.2.2) := by
  cases h with
  | idle hidle => cases hidle.symm.trans hrunning
  | running hrunning' hcycle hhistory hmemories hevents hlogger hexec hcall =>
    cases hrunning'.symm.trans hrunning
    subst hcycle
    exact ⟨_, _, _, rfl, hhistory, hexec⟩

end Tracks

-- ════════════════════════════════════════════════════════════════════════
-- The audio thread never waits
-- ════════════════════════════════════════════════════════════════════════

/-- A step of a run, inside a call of `log` or not. -/
def Act.isOwn : Act α ε → Bool
  | operate | log _ => true
  | _ => false

/-- The steps the run in progress still has to make. -/
def remaining (s : Hosted w α ε σ) : ℕ :=
  match s.running with
  | some r => r.rest.cost r.cycle.ports r.memory - s.sink.ring.producer.made
  | none => 0

theorem remaining_of_running {r : Running α ε σ} (h : s.running = some r) :
    s.remaining = r.rest.cost r.cycle.ports r.memory - s.sink.ring.producer.made := by
  rw [remaining, h]

/-- What the audio thread is at, as far as its own steps go. -/
structure Within (r : Running α ε σ) (s : Hosted w α ε σ) : Prop where
  logger : s.sink.logger = .running
  call : s.sink.ring.producer = .idle ∨ ∃ event next, r.rest = .log event next ∧
    s.sink.ring.producer.offering = [event]

theorem Tracks.within {h₀ : History α ε σ} {vs : List (Visit α)} {r : Running α ε σ}
    (h : Tracks P h₀ vs s) (hrunning : s.running = some r) : Within r s := by
  cases h with
  | idle hidle => cases hidle.symm.trans hrunning
  | running hrunning' hcycle hhistory hmemories hevents hlogger hexec hcall =>
    cases hrunning'.symm.trans hrunning
    exact ⟨hlogger, hcall⟩

/-- **Step.** While a run is in progress its own steps take it nearer to its end, and no other
step takes it back. -/
theorem Within.pays {r : Running α ε σ} (h : Within r s) (hrunning : s.running = some r)
    {a : Act α ε} (hstep : s.step P panicAt a = some t) (hleave : a ≠ .leave) :
    ∃ r', t.running = some r' ∧ r'.cycle = r.cycle ∧
      t.remaining + (if a.isOwn then 1 else 0) ≤ s.remaining := by
  have hmade : s.sink.ring.producer.made ≤ 3 := by
    cases s.sink.ring.producer <;> simp
  have hzero : (Ring.PushPc.idle : Ring.PushPc w ε).made = 0 := rfl
  cases step_cases hstep with
  | visit hidle hlogger => cases hidle.symm.trans hrunning
  | @operate r' rest memory hrunning' hnext =>
    cases hrunning.symm.trans hrunning'
    have hidle : s.sink.ring.producer = .idle := by
      refine h.call.resolve_right ?_
      rintro ⟨event, next, hrest, -⟩
      rw [hrest] at hnext
      cases hnext
    have hcost := (LogProg.exec_next hnext).2
    refine ⟨_, rfl, rfl, ?_⟩
    rw [remaining_of_running hrunning, hidle, hzero]
    simp only [remaining, hidle, hzero, Act.isOwn, if_true]
    omega
  | @log r' event next a sink hrunning' hrest hsink =>
    cases hrunning.symm.trans hrunning'
    obtain ⟨-, -, hpush, -⟩ := log_cases hsink
    have hoffering : s.sink.ring.producer = .idle ∨
        s.sink.ring.producer.offering = [event] := by
      refine h.call.imp_right ?_
      rintro ⟨event', next', hrest', hoffering⟩
      cases hrest'.symm.trans hrest
      exact hoffering
    rw [remaining_of_running hrunning, hrest, LogProg.cost]
    rcases pushAct_step hpush hoffering with ⟨hidle, -⟩ | ⟨hne, -, hnext, -⟩
    · refine ⟨_, rfl, by rw [hidle]; rfl, ?_⟩
      simp only [remaining, hidle, hzero, Running.after, Act.isOwn, if_true]
      omega
    · refine ⟨_, rfl, by rw [Running.after_of_ne hne], ?_⟩
      simp only [remaining, Running.after_of_ne hne, hrest, LogProg.cost, Act.isOwn, if_true]
      omega
  | leave hrunning' hrest => exact absurd rfl hleave
  | cleanup hidle hsink => cases hidle.symm.trans hrunning
  | join hsink =>
    cases LogSink.step_cases hsink with
    | join hlogger hdone => cases hlogger.symm.trans h.logger
  | drainer ha hsink =>
    obtain ⟨-, -, hproducer⟩ := drainer_frame ha hsink
    refine ⟨r, hrunning, rfl, ?_⟩
    simp only [remaining, hproducer, Act.isOwn, Bool.false_eq_true, if_false]
    exact le_rfl

/-- **Run.** A run in progress makes no more steps than it had left, whatever the drainer
does. -/
theorem Tracks.pays {h₀ : History α ε σ} {vs : List (Visit α)} {r : Running α ε σ}
    {as : List (Act α ε)} (h : Tracks P h₀ vs s) (hrunning : s.running = some r)
    (hrun : Transition.run (Hosted.step P panicAt) s as = some t) (hleave : .leave ∉ as) :
    ∃ r', t.running = some r' ∧ r'.cycle = r.cycle ∧
      t.remaining + as.countP Act.isOwn ≤ s.remaining := by
  induction as generalizing vs s r with
  | nil =>
    cases hrun
    exact ⟨r, hrunning, rfl, le_rfl⟩
  | cons a as ih =>
    obtain ⟨u, hu, hrest⟩ := Transition.run_cons_eq_some.mp hrun
    obtain ⟨hne, hleave⟩ := not_or.mp (mt List.mem_cons.mpr hleave)
    obtain ⟨r₁, hr₁, hcycle₁, hpays₁⟩ := (h.within hrunning).pays hrunning hu (Ne.symm hne)
    obtain ⟨r₂, hr₂, hcycle₂, hpays₂⟩ := ih (h.step hu) hr₁ hrest hleave
    refine ⟨r₂, hr₂, hcycle₂.trans hcycle₁, ?_⟩
    rw [List.countP_cons]
    omega

/-- The step of `try_push` that a call of `log` is at is the one of that call. -/
theorem exists_pushAct {ring ring' : Ring.State w ε} {event : ε} {a : PushAct ε}
    (h : Ring.step ring (.push a) = some ring')
    (ha : a = .loadTail event ∨ ring.producer ≠ .idle) :
    ∃ b, pushAct event b = a := by
  cases a with
  | loadTail value =>
    rcases ha with ha | hne
    · exact ⟨.loadTail (), ha.symm⟩
    · have hpush : Ring.pushStep ring (.loadTail value) = some ring' := h
      cases Ring.pushStep_eq_some_iff.mp hpush with
      | loadTail hidle => exact absurd hidle hne
  | loadHead place => exact ⟨.loadHead place, rfl⟩
  | returnErr => exact ⟨.returnErr, rfl⟩
  | write => exact ⟨.write, rfl⟩
  | storeTail => exact ⟨.storeTail, rfl⟩

/-- A run that has not panicked can make its next step, or return. -/
theorem Within.enabled {r : Running α ε σ} (h : Within r s) (hrunning : s.running = some r)
    (hc : Ring.Counters s.sink.ring) (hrest : ∀ panic, r.rest ≠ .fail panic) :
    ∃ a, (a.isOwn = true ∨ a = .leave) ∧ (s.step P panicAt a).isSome := by
  cases hcase : r.rest with
  | done plugin =>
    refine ⟨.leave, .inr rfl, ?_⟩
    simp only [step, hrunning, hcase]
    rfl
  | fail panic => exact absurd hcase (hrest panic)
  | op o after =>
    obtain ⟨x, hx⟩ := LogProg.exists_next r.cycle.ports o after r.memory
    refine ⟨.operate, .inl rfl, ?_⟩
    simp only [step, hrunning, hcase, hx]
    rfl
  | log event next =>
    obtain ⟨a, ring, hring, ha⟩ := hc.push_enabled event
    obtain ⟨b, rfl⟩ := exists_pushAct hring ha
    have hpush : Ring.pushStep s.sink.ring (pushAct event b) = some ring := hring
    refine ⟨.log b, .inl rfl, ?_⟩
    simp only [step, hrunning, hcase, LogSink.step, h.logger, hpush]
    rfl

end Hosted

end Entry
