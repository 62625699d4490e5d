import TympanLadspa.Entry.Logging
import TympanLadspa.Examples.DelaySafety
import TympanLadspa.Examples.Reset
import TympanLadspa.Realtime.LogRoom

/-!
# The delay and its drainer

The delay plugin with the sink it owns: `run` on the audio thread, the drainer on its own. The
drainer has no influence on the audio, the audio thread does not wait for it, and the events
that are printed are the feedback values above the cap, in order, as far as the queue had room.
-/

open Port (LogProg Memory Panic Ports Prog Sample)

namespace Delay

variable {α Λ : Type} [Sample α]

/-- What `run` reports of a feedback value. -/
def report (feedbackRaw : α) : List (DelayLogEvent α) :=
  if Sample.gt feedbackRaw feedbackCap then [.feedbackClamped feedbackRaw] else []

/-- The part of `run` behind the call of `log`. -/
def runRest (delay : Delay α Unit) (delayMs feedback : α) :
    LogProg α (DelayLogEvent α) (Delay α Unit) :=
  .load (.controlInput 4) fun mixRaw =>
  let mix := Sample.clamp mixRaw 0 1
  .op (.audioInOut 0 1) fun
    | .slices input output =>
      .ofProg <|
        (applyDelay delay.buffer delay.writeIndex 0 1 (min input.len output.len)
          (delaySamples delayMs delay.sampleRate) feedback mix).map fun line =>
            { delay with buffer := line.1, writeIndex := line.2 }
    | _ => .fail (.assertion "not a pair of slices")

/-- `run`, with the call of `log` where it stands in the source. -/
def runLogging (delay : Delay α Unit) (_frames : ℕ) :
    LogProg α (DelayLogEvent α) (Delay α Unit) :=
  .load (.controlInput 2) fun delayMs =>
  .load (.controlInput 3) fun feedbackRaw =>
  let feedback := Sample.clamp feedbackRaw 0 feedbackCap
  if Sample.gt feedbackRaw feedbackCap then
    .log (.feedbackClamped feedbackRaw) (runRest delay delayMs feedback)
  else runRest delay delayMs feedback

def logging : Entry.LoggingPlugin α (DelayLogEvent α) (Delay α Unit) where
  activate := activate
  run := runLogging

/-- The delay with a log that has been handed some events. -/
def withLog (sink : Sink Λ (DelayLogEvent α)) (logger : Λ) (delay : Delay α Unit)
    (events : List (DelayLogEvent α)) : Delay α Λ :=
  { sampleRate := delay.sampleRate
    buffer := delay.buffer
    writeIndex := delay.writeIndex
    logger := events.foldl (fun l event => (sink.log l event).2) logger }

/-- What follows the call of `log` does not look at the log. -/
theorem runRest_interprets (delay : Delay α Unit) (delayMs feedback : α) (logger : Λ)
    {f : Delay α Unit → List (DelayLogEvent α) → Delay α Λ}
    (hf : ∀ delay', f delay' [] =
      { sampleRate := delay'.sampleRate, buffer := delay'.buffer
        writeIndex := delay'.writeIndex, logger := logger }) :
    Prog.Interprets f
      (.load (.controlInput 4) fun mixRaw =>
        .op (.audioInOut 0 1) fun
          | .slices input output =>
            (applyDelay delay.buffer delay.writeIndex 0 1 (min input.len output.len)
              (delaySamples delayMs delay.sampleRate) feedback (Sample.clamp mixRaw 0 1)).map
                fun line =>
                  { sampleRate := delay.sampleRate, buffer := line.1, writeIndex := line.2
                    logger := logger }
          | _ => .fail (.assertion "not a pair of slices"))
      (runRest delay delayMs feedback) := by
  apply Prog.Interprets.load
  intro mixRaw
  apply Prog.Interprets.op
  intro reply
  cases reply with
  | slices input output =>
    have h := Prog.Interprets.ofProg (f := f) <|
      (applyDelay delay.buffer delay.writeIndex 0 1 (min input.len output.len)
        (delaySamples delayMs delay.sampleRate) feedback (Sample.clamp mixRaw 0 1)).map
          fun line => ({ delay with buffer := line.1, writeIndex := line.2 } : Delay α Unit)
    rw [Prog.map_map] at h
    convert h using 2
    funext line
    exact (hf { delay with buffer := line.1, writeIndex := line.2 }).symm
  | _ => exact .fail _

/-- **`run` on any queue** is the run that logs, with its events handed to the queue. -/
theorem run_interprets (sink : Sink Λ (DelayLogEvent α)) (logger : Λ) (delay : Delay α Unit)
    (frames : ℕ) :
    Prog.Interprets (withLog sink logger) (run sink (withLog sink logger delay []) frames)
      (runLogging delay frames) := by
  apply Prog.Interprets.load
  intro delayMs
  apply Prog.Interprets.load
  intro feedbackRaw
  by_cases hgt : Sample.gt feedbackRaw feedbackCap = true
  · simp only [hgt, if_true, logFeedback]
    apply Prog.Interprets.log
    exact runRest_interprets delay delayMs _ _ fun _ => rfl
  · simp only [hgt, Bool.false_eq_true, if_false, logFeedback]
    exact runRest_interprets delay delayMs _ _ fun _ => rfl

theorem logging_mutes : (logging : Entry.LoggingPlugin α _ _).Mutes (plugin mute) where
  activate := rfl
  run state frames := run_interprets mute () state frames
  deactivate := rfl

-- ════════════════════════════════════════════════════════════════════════
-- What a run logs, and what it takes
-- ════════════════════════════════════════════════════════════════════════

/-- The events of a run, by the feedback its host has asked for. -/
def events (c : Entry.Cycle α) : List (DelayLogEvent α) :=
  match c.ports.controlInput 3 with
  | .ok feedback => report (c.memory feedback)
  | .error _ => []

theorem runRest_quiet (delay : Delay α Unit) (delayMs feedback : α) :
    (runRest delay delayMs feedback).Quiet := by
  apply LogProg.Quiet.load
  intro mixRaw
  apply LogProg.Quiet.op
  intro reply
  cases reply with
  | slices input output => exact LogProg.quiet_ofProg _
  | _ => exact LogProg.quiet_fail _

theorem runLogging_events {delay : Delay α Unit} {c : Entry.Cycle α}
    {x : Delay α Unit × List (DelayLogEvent α) × Memory α}
    (h : (runLogging delay c.ports.frames).exec c.ports c.memory = .ok x) : x.2.1 = events c := by
  obtain ⟨delayMs, -, h⟩ := LogProg.exec_load_eq_ok h
  obtain ⟨feedback, hfeedback, h⟩ := LogProg.exec_load_eq_ok h
  rw [events, Ports.controlInput_of_resolve hfeedback]
  simp only [report]
  by_cases hgt : Sample.gt (c.memory feedback) feedbackCap = true
  · rw [if_pos hgt, LogProg.exec] at h
    rw [if_pos hgt]
    obtain ⟨y, hy, rfl⟩ := Entry.except_map_eq_ok h
    exact congrArg (_ :: ·) (runRest_quiet _ _ _ _ _ _ hy)
  · rw [if_neg hgt] at h
    rw [if_neg hgt]
    exact runRest_quiet _ _ _ _ _ _ h

/-- A sample is two loads and a store. -/
theorem processSamples_cost (inPort outPort len delay : ℕ) (feedback mix : α) (n i : ℕ)
    (buffer : List α) (writeIndex : ℕ) (ports : Ports α) (m : Memory α) :
    (LogProg.ofProg (processSamples inPort outPort len delay feedback mix n i buffer writeIndex) :
      LogProg α (DelayLogEvent α) _).cost ports m ≤ 3 * n := by
  induction n generalizing i buffer writeIndex m with
  | zero => exact le_rfl
  | succ n ih =>
    rw [processSamples]
    split
    · exact Nat.zero_le _
    · refine LogProg.cost_op_le (k := 3 * n + 2) ?_ m
      intro reply m
      cases reply with
      | data x =>
        refine LogProg.cost_op_le (k := 3 * n + 1) ?_ m
        intro _ m
        refine LogProg.cost_op_le (k := 3 * n) ?_ m
        intro reply m
        cases reply with
        | data x =>
          simp only
          split
          · exact ih _ _ _ _
          · exact Nat.zero_le _
        | _ => exact Nat.zero_le _
      | _ => exact Nat.zero_le _

theorem runRest_cost (delay : Delay α Unit) (delayMs feedback : α) (ports : Ports α)
    (m : Memory α) : (runRest delay delayMs feedback).cost ports m ≤ 3 * ports.frames + 2 := by
  apply LogProg.cost_load_le
  intro mixRaw m
  rw [LogProg.cost]
  cases hresolve : ports.resolve (.audioInOut 0 1) with
  | error panic => exact Nat.le_add_left 1 _
  | ok effect =>
    refine Nat.add_le_add_right ?_ 1
    cases effect with
    | reply r =>
      obtain ⟨input, output, rfl, hin, hout⟩ := Ports.slices_of_resolve hresolve
      simp only [Port.Effect.apply]
      rw [LogProg.cost_ofProg_map, applyDelay]
      split
      · exact Nat.zero_le _
      · refine (processSamples_cost ..).trans ?_
        rw [hin, hout, Nat.min_self]
    | load p => exact Nat.zero_le _
    | store p value => exact Nat.zero_le _

/-- **What a run takes the audio thread**: three steps a frame, one for each control, one for the
slices, and four when it logs. -/
theorem runLogging_cost (delay : Delay α Unit) (frames : ℕ) (ports : Ports α) (m : Memory α) :
    (runLogging delay frames).cost ports m ≤ 3 * ports.frames + 8 := by
  apply LogProg.cost_load_le
  intro delayMs m
  apply LogProg.cost_load_le
  intro feedbackRaw m
  have hrest := runRest_cost delay delayMs (Sample.clamp feedbackRaw 0 feedbackCap) ports m
  simp only
  split
  · exact Nat.add_le_add_right hrest 4
  · exact hrest.trans (by omega)

-- ════════════════════════════════════════════════════════════════════════
-- The instance and its drainer
-- ════════════════════════════════════════════════════════════════════════

section

open Entry (Hosted Visit)
open Entry.Hosted (Act Tracks)

variable {sampleRate : BitVec 32} {panicAt : Option ℕ} {as bs : List (Act α (DelayLogEvent α))}
  {sink : LogSink.State 64 (DelayLogEvent α)} {s t u : Hosted 64 α (DelayLogEvent α) (Delay α Unit)}

/-- What the calls of the host have come to, in any state of the instance and its drainer. -/
theorem tracks_of_run (hnew : LogSink.new (BitVec.ofNat 64 logCapacity) = .ok sink)
    (hrun : Transition.run (Hosted.step logging panicAt)
      (.start (instantiate mute sampleRate) sink) as = some s) :
    Tracks logging ⟨instantiate mute sampleRate, [], []⟩ (as.flatMap Act.visits) s := by
  obtain ⟨inner, -, rfl⟩ := LogSink.new_eq_ok hnew
  exact (Tracks.start _ rfl rfl).run hrun

/-- **End to end.** Whatever the drainer does and when, and if it panics: between two calls of
the host the plugin and the memory behind each run are those of a delay without a log, and `log`
has been called on the feedback values above the cap, in order. It has returned true for all of
them as long as there were at most 64. Once `cleanup` has returned, those it has returned true
for have been printed, in order and once each, if the drainer has not panicked. -/
theorem logged_end_to_end (hnew : LogSink.new (BitVec.ofNat 64 logCapacity) = .ok sink)
    (hrun : Transition.run (Hosted.step logging panicAt)
      (.start (instantiate mute sampleRate) sink) as = some t) (hidle : t.running = none) :
    Transition.run (plugin mute).attend (instantiate mute sampleRate, [])
        (as.flatMap Act.visits) = some (t.plugin, t.memories) ∧
      t.sink.results.map Prod.fst = (as.flatMap Act.visits).flatMap (Visit.events events) ∧
      (t.sink.results.length ≤ logCapacity → ∀ r ∈ t.sink.results, r.2 = true) ∧
      (panicAt = none → t.sink.logger = .dropped →
        t.sink.drained = (t.sink.results.filter Prod.snd).map Prod.fst) := by
  have hreach : Transition.Reaches (LogSink.step panicAt) sink t.sink :=
    Entry.Hosted.reaches_sink (.of_run hrun)
  have hsound := (LogSink.Sound.of_new hnew).reaches hreach
  obtain ⟨h, hhistory, hplugin, hmemories, hevents, hcall⟩ :=
    (tracks_of_run hnew hrun).of_idle hidle
  refine ⟨?_, ?_, ?_, ?_⟩
  · rw [logging_mutes.attend hhistory, hplugin, hmemories]
  · have hlogged := Entry.LoggingPlugin.visit_events events
      (fun _ _ _ hexec => runLogging_events hexec) hhistory
    rw [← hevents, hlogged, List.nil_append]
  · intro hfits
    apply LogSink.all_logged hnew hreach
    have hoffered := congrArg List.length hsound.results_events
    rw [hcall, Ring.PushPc.offering, List.append_nil, List.length_map] at hoffered
    exact hoffered.symm.trans_le hfits
  · rintro rfl hdrop
    obtain ⟨inner, hch, rfl⟩ := LogSink.new_eq_ok hnew
    have hcap : t.sink.ring.inner.capacity = BitVec.ofNat 64 logCapacity :=
      (LogSink.capacity_of_reaches hreach).trans (Ring.channel_eq_ok hch).2.1
    have hno : Ring.NoCollision t.sink.ring := by
      rw [Ring.NoCollision, hcap]
      exact .inl (by decide)
    obtain ⟨hsound, hslots⟩ := LogSink.sound_of_reaches hch hreach hno
    rw [LogSink.drained_of_dropped hsound hslots hdrop, hsound.results_true]

/-- The delay of a history has its write index in its buffer. -/
theorem wellFormed_of_attend {vs : List (Visit α)}
    {s s' : Delay α Unit × List (Memory α)}
    (hrun : Transition.run (plugin mute).attend s vs = some s') (h : s.1.WellFormed) :
    s'.1.WellFormed := by
  refine Transition.run_invariant (I := fun s : Delay α Unit × List (Memory α) =>
    s.1.WellFormed) ?_ hrun h
  rintro u v u' - hu hstep
  cases v with
  | activate =>
    cases hstep
    exact hu.activate
  | run c =>
    rw [Entry.Plugin.attend] at hstep
    split at hstep
    · cases hstep
    · next hcycle =>
      cases hstep
      exact (run_returns mute hu c.ports.frames).exec hcycle
  | deactivate =>
    cases hstep
    exact hu

/-- **The audio thread never waits.** From when a run is entered until it returns it makes at
most three steps a frame and eight more, whatever the drainer does in between and if it has
panicked; and on the ports of an instance its next step can be made, so that it returns. -/
theorem run_never_waits (hnew : LogSink.new (BitVec.ofNat 64 logCapacity) = .ok sink)
    (hrun : Transition.run (Hosted.step logging panicAt)
      (.start (instantiate mute sampleRate) sink) as = some s) {c : Entry.Cycle α}
    (henter : s.step logging panicAt (.visit (.run c)) = some t)
    (hwithin : Transition.run (Hosted.step logging panicAt) t bs = some u)
    (hleave : .leave ∉ bs) :
    bs.countP Act.isOwn ≤ 3 * c.ports.frames + 8 ∧
      (Lent c.ports →
        ∃ a, (a.isOwn = true ∨ a = .leave) ∧ (u.step logging panicAt a).isSome) := by
  have htracks := (tracks_of_run hnew hrun).step henter
  have hrunning : t.running =
      some ⟨c, runLogging s.plugin c.ports.frames, c.memory⟩ := by
    cases Entry.Hosted.step_cases henter with
    | visit hidle hlogger => rfl
  obtain ⟨r, hr, hcycle, hpays⟩ := htracks.pays hrunning hwithin hleave
  constructor
  · rw [Entry.Hosted.remaining_of_running hrunning] at hpays
    have hcost := runLogging_cost s.plugin c.ports.frames c.ports c.memory
    exact (Nat.le_add_left _ _).trans (hpays.trans ((Nat.sub_le _ _).trans hcost))
  · intro hlent
    have htracks' := htracks.run hwithin
    have hreach : Transition.Reaches (Hosted.step logging panicAt)
        (.start (instantiate mute sampleRate) sink) u := by
      refine ⟨as ++ .visit (.run c) :: bs, ?_⟩
      refine Transition.run_append_eq_some.mpr ⟨s, hrun, ?_⟩
      exact Transition.run_cons_eq_some.mpr ⟨t, henter, hwithin⟩
    have hcounters :=
      ((LogSink.Sound.of_new hnew).reaches (Entry.Hosted.reaches_sink hreach)).counters
    refine (htracks'.within hr).enabled hr hcounters fun panic hfail => ?_
    -- a run that has panicked is one of a delay without a log that panics
    obtain ⟨vs, h, es, -, hhistory, hexec⟩ := htracks'.of_running hr
    have hwellFormed : h.plugin.WellFormed :=
      wellFormed_of_attend (logging_mutes.attend hhistory) (instantiate_wellFormed mute sampleRate)
    rw [hcycle, hfail] at hexec
    obtain ⟨state, m', hok, -⟩ := run_succeeds mute hwellFormed hlent c.ports.frames c.memory
    have hquiet := logging_mutes.run h.plugin c.ports.frames c.ports c.memory
    rw [hexec] at hquiet
    cases hok.symm.trans hquiet

/-- A run of one frame with a feedback of two. -/
def loud : Entry.Cycle ℚ where
  ports := { ptrs := [16, 32, 48, 49, 50], descriptors := Delay.ports, frames := 1 }
  memory p := if p = 49 then 2 else 1

/-- The drainer looks at the ring before and after the event is there. -/
def loudActs : List (Act ℚ (DelayLogEvent ℚ)) :=
  [.visit .activate, .drainer (.tryPop .loadHead), .visit (.run loud), .operate, .operate,
    .log (.loadTail ()), .drainer (.tryPop (.loadTail 0)), .log (.loadHead 0), .log .write,
    .drainer (.tryPop .returnNone), .log .storeTail, .operate, .operate, .operate,
    .drainer (.loadShutdown 0), .operate, .operate, .leave, .cleanup, .drainer .sleep,
    .drainer (.tryPop .loadHead), .drainer (.tryPop (.loadTail 1)), .drainer (.tryPop .read),
    .drainer (.tryPop .storeHead), .drainer .drainOne, .drainer .drainOneReturns,
    .drainer (.tryPop .loadHead), .drainer (.tryPop (.loadTail 1)),
    .drainer (.tryPop .returnNone), .drainer (.loadShutdown 0),
    .drainer (.tryPop .loadHead), .drainer (.tryPop (.loadTail 1)),
    .drainer (.tryPop .returnNone), .drainer (.loadShutdown 1),
    .drainer (.tryPop .loadHead), .drainer (.tryPop (.loadTail 1)),
    .drainer (.tryPop .returnNone), .join]

/-- The sink of a new delay. -/
def newSink : LogSink.State 64 (DelayLogEvent ℚ) :=
  .start
    { buffer := List.replicate 64 none, capacity := 64#64, head := .new 0, tail := .new 0
      capacity_pos := by decide, buffer_length := List.length_replicate }

theorem loud_end_to_end : LogSink.new (BitVec.ofNat 64 logCapacity) = .ok newSink ∧ ∃ t,
    Transition.run (Hosted.step logging none) (.start (instantiate mute 1#32) newSink) loudActs =
      some t ∧
    Transition.run (plugin mute).attend (instantiate mute 1#32, []) [.activate, .run loud] =
      some (t.plugin, t.memories) ∧
    t.sink.results.map Prod.fst = [.feedbackClamped 2] ∧ (∀ r ∈ t.sink.results, r.2 = true) ∧
    t.sink.drained = (t.sink.results.filter Prod.snd).map Prod.fst := by
  have hnew : LogSink.new (BitVec.ofNat 64 logCapacity) = .ok newSink := rfl
  have hend : (Transition.run (Hosted.step logging none)
      (.start (instantiate mute 1#32) newSink) loudActs).map
        (fun t => (t.running.isNone, decide (t.sink.logger = .dropped))) = some (true, true) := by
    decide +kernel
  obtain ⟨t, ht, heq⟩ := Option.map_eq_some_iff.mp hend
  obtain ⟨hidle, hdrop⟩ := Prod.mk.inj heq
  obtain ⟨haudio, hevents, hlogged, hdrained⟩ :=
    logged_end_to_end hnew ht (Option.isNone_iff_eq_none.mp hidle)
  have hloud : (loudActs.flatMap Act.visits).flatMap (Visit.events events) =
      [.feedbackClamped 2] := by
    have hgt : Sample.gt (2 : ℚ) feedbackCap = true := by decide +kernel
    show [] ++ (report (2 : ℚ) ++ []) = _
    rw [report, if_pos hgt]
    rfl
  rw [hloud] at hevents
  have hlength := congrArg List.length hevents
  rw [List.length_map] at hlength
  exact ⟨hnew, t, ht, haudio, hevents, hlogged (hlength.trans_le (by decide)),
    hdrained rfl (of_decide_eq_true hdrop)⟩

/-- A run of one frame that is behind its call of `log`, with the drainer between two looks. -/
theorem loud_never_waits : LogSink.new (BitVec.ofNat 64 logCapacity) = .ok newSink ∧ ∃ s t u,
    Transition.run (Hosted.step logging none) (.start (instantiate mute 1#32) newSink)
      (loudActs.take 2) = some s ∧
    s.step logging none (.visit (.run loud)) = some t ∧
    Transition.run (Hosted.step logging none) t ((loudActs.drop 3).take 10) = some u ∧
    ((loudActs.drop 3).take 10).countP Act.isOwn ≤ 3 * 1 + 8 ∧
    ∃ a, (a.isOwn = true ∨ a = .leave) ∧ (u.step logging none a).isSome := by
  have hnew : LogSink.new (BitVec.ofNat 64 logCapacity) = .ok newSink := rfl
  have hrun : (Transition.run (Hosted.step logging none)
      (.start (instantiate mute 1#32) newSink) (loudActs.take 13)).isSome = true := by
    decide +kernel
  obtain ⟨u, hu⟩ := Option.isSome_iff_exists.mp hrun
  have hsplit : loudActs.take 13 =
      loudActs.take 2 ++ .visit (.run loud) :: (loudActs.drop 3).take 10 := rfl
  rw [hsplit] at hu
  obtain ⟨s, hs, hu⟩ := Transition.run_append_eq_some.mp hu
  obtain ⟨t, ht, hu⟩ := Transition.run_cons_eq_some.mp hu
  obtain ⟨hcost, henabled⟩ := run_never_waits hnew hs ht hu (by simp [loudActs])
  exact ⟨hnew, s, t, u, hs, ht, hu, hcost, henabled ⟨rfl, rfl⟩⟩

end

end Delay
