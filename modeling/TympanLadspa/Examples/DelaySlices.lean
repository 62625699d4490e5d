import TympanLadspa.Entry.Session
import TympanLadspa.Examples.DelayBlock

/-!
# `apply_delay` on slices

The function as its tests call it, with an input and an output of their own that need not
be of one length. A sequence of calls is one pass over a signal: each sample comes with the
parameters of its call, and where one call ends and the next begins is lost
(`applyAll_eq`). Runs of the plugin with two buffers are such calls (`cycles_eq`).
-/

namespace Delay

open Port (Ptr Memory Ports Panic Prog Slice Sample)

variable {α Λ : Type} [Sample α]

/-- The loop of `apply_delay`, over what is left of the input and the output. -/
def zipSamples (len delay : ℕ) (feedback mix : α) :
    List α → List α → List α → ℕ → Except Panic (List α × List α × ℕ)
  | x :: input, _ :: output, buffer, writeIndex =>
    let readIndex := (writeIndex + len - delay) % len
    match buffer[readIndex]? with
    | none => .error (.indexOutOfBounds buffer.length readIndex)
    | some delayed =>
      if writeIndex < buffer.length then do
        let (output', line) ← zipSamples len delay feedback mix input output
          (buffer.set writeIndex (x + feedback * delayed)) ((writeIndex + 1) % len)
        return (((1 - mix) * x + mix * delayed) :: output', line)
      else .error (.indexOutOfBounds buffer.length writeIndex)
  | _, output, buffer, writeIndex => .ok (output, buffer, writeIndex)

/-- The arguments of a call of `apply_delay`, but for the delay line. -/
structure Request (α : Type) where
  input : List α
  output : List α
  delaySamples : ℕ
  feedback : α
  mix : α

namespace Request

/-- `apply_delay`: the output, the buffer and the write index behind a call. -/
def applyDelay (r : Request α) (buffer : List α) (writeIndex : ℕ) :
    Except Panic (List α × List α × ℕ) :=
  if buffer.length = 0 then .ok (r.output, buffer, writeIndex)
  else
    zipSamples buffer.length (min r.delaySamples (buffer.length - 1)) r.feedback r.mix r.input
      r.output buffer writeIndex

/-- The samples that both slices have. -/
def processed (r : Request α) : ℕ := min r.input.length r.output.length

end Request

/-- One call after the other; the output is what they have processed. -/
def applyAll : List (Request α) → List α → ℕ → Except Panic (List α × List α × ℕ)
  | [], buffer, writeIndex => .ok ([], buffer, writeIndex)
  | r :: rs, buffer, writeIndex => do
    let (output, buffer', writeIndex') ← r.applyDelay buffer writeIndex
    let (outputs, line) ← applyAll rs buffer' writeIndex'
    return (output.take r.processed ++ outputs, line)

-- ════════════════════════════════════════════════════════════════════════
-- The signal
-- ════════════════════════════════════════════════════════════════════════

/-- A sample and the parameters it is processed with. -/
structure Tap (α : Type) where
  sample : α
  steps : ℕ
  feedback : α
  mix : α

/-- The output sample when `delayed` comes out of the line. -/
def Tap.out (tap : Tap α) (delayed : α) : α := (1 - tap.mix) * tap.sample + tap.mix * delayed

/-- What goes into the line then. -/
def Tap.kept (tap : Tap α) (delayed : α) : α := tap.sample + tap.feedback * delayed

/-- A signal through a line. -/
def stream : DelayLine α → List (Tap α) → List α × DelayLine α
  | l, [] => ([], l)
  | l, tap :: taps =>
    let (outs, l') := stream (l.push (tap.kept (l.ago tap.steps))) taps
    (tap.out (l.ago tap.steps) :: outs, l')

/-- The part of the signal that a call processes. -/
def Request.taps (len : ℕ) (r : Request α) : List (Tap α) :=
  (r.input.take r.output.length).map fun x =>
    ⟨x, min r.delaySamples (len - 1), r.feedback, r.mix⟩

def signal (len : ℕ) (rs : List (Request α)) : List (Tap α) := rs.flatMap (Request.taps len)

variable {l : DelayLine α} {taps : List (Tap α)}

theorem stream_cons (l : DelayLine α) (tap : Tap α) (taps : List (Tap α)) :
    stream l (tap :: taps) =
      (tap.out (l.ago tap.steps) :: (stream (l.push (tap.kept (l.ago tap.steps))) taps).1,
        (stream (l.push (tap.kept (l.ago tap.steps))) taps).2) := rfl

@[simp] theorem stream_length (l : DelayLine α) (taps : List (Tap α)) :
    (stream l taps).1.length = taps.length := by
  induction taps generalizing l with
  | nil => rfl
  | cons tap taps ih => rw [stream_cons, List.length_cons, ih, List.length_cons]

@[simp] theorem len_stream (l : DelayLine α) (taps : List (Tap α)) :
    (stream l taps).2.len = l.len := by
  induction taps generalizing l with
  | nil => rfl
  | cons tap taps ih => rw [stream_cons, ih, DelayLine.len_push]

theorem stream_append (l : DelayLine α) (taps taps' : List (Tap α)) :
    stream l (taps ++ taps') =
      ((stream l taps).1 ++ (stream (stream l taps).2 taps').1,
        (stream (stream l taps).2 taps').2) := by
  induction taps generalizing l with
  | nil => rfl
  | cons tap taps ih => rw [List.cons_append, stream_cons, ih, stream_cons, List.cons_append]

/-- A block is a signal whose parameters stay. -/
theorem block_eq_stream (l : DelayLine α) (delay : ℕ) (feedback mix : α) (xs : List α) :
    block false delay feedback mix l xs =
      stream l (xs.map fun x => ⟨x, delay, feedback, mix⟩) := by
  induction xs generalizing l with
  | nil => rfl
  | cons x xs ih =>
    rw [block_cons, ih, List.map_cons, stream_cons]
    rfl

/-- The loop is the stream; the rest of a longer output stays. -/
theorem zipSamples_eq {len delay : ℕ} {feedback mix : α} (input output : List α)
    (l : DelayLine α) (hlen : l.len = len) :
    zipSamples len delay feedback mix input output l.buffer l.writeIndex =
      .ok
        ((stream l ((input.take output.length).map fun x => ⟨x, delay, feedback, mix⟩)).1 ++
            output.drop input.length,
          (stream l ((input.take output.length).map fun x => ⟨x, delay, feedback, mix⟩)).2.buffer,
          (stream l ((input.take output.length).map fun x =>
            ⟨x, delay, feedback, mix⟩)).2.writeIndex) := by
  induction input generalizing output l with
  | nil =>
    rw [List.take_nil]
    rfl
  | cons x input ih =>
    cases output with
    | nil => rfl
    | cons y output =>
      have hread : l.buffer[(l.writeIndex + len - delay) % len]? = some (l.ago delay) :=
        hlen ▸ l.getElem?_back delay
      have hrest := ih output (l.push (x + feedback * l.ago delay))
        ((l.len_push _).trans hlen)
      simp only [zipSamples, hread]
      rw [if_pos l.writeIndex_lt, List.length_cons, List.take_succ_cons, List.map_cons,
        stream_cons]
      have hindex : (l.writeIndex + 1) % len = (l.push (x + feedback * l.ago delay)).writeIndex :=
        hlen ▸ rfl
      rw [hindex]
      exact congrArg (Except.map fun line : List α × List α × ℕ =>
        (((1 - mix) * x + mix * l.ago delay) :: line.1, line.2)) hrest

/-- **A call** from a line that is not empty. -/
theorem Request.applyDelay_eq (r : Request α) (l : DelayLine α) :
    r.applyDelay l.buffer l.writeIndex =
      .ok ((stream l (r.taps l.len)).1 ++ r.output.drop r.input.length,
        (stream l (r.taps l.len)).2.buffer, (stream l (r.taps l.len)).2.writeIndex) := by
  rw [applyDelay, if_neg (Nat.ne_zero_of_lt l.writeIndex_lt)]
  exact zipSamples_eq r.input r.output l rfl

omit [Sample α] in
theorem Request.taps_length (len : ℕ) (r : Request α) : (r.taps len).length = r.processed := by
  rw [taps, List.length_map, List.length_take, Nat.min_comm, processed]

/-- **A sequence of calls** is one pass over the signal. -/
theorem applyAll_eq (rs : List (Request α)) (l : DelayLine α) :
    applyAll rs l.buffer l.writeIndex =
      .ok ((stream l (signal l.len rs)).1, (stream l (signal l.len rs)).2.buffer,
        (stream l (signal l.len rs)).2.writeIndex) := by
  induction rs generalizing l with
  | nil => rfl
  | cons r rs ih =>
    have hrest := ih (stream l (r.taps l.len)).2
    rw [len_stream] at hrest
    have htake : ((stream l (r.taps l.len)).1 ++ r.output.drop r.input.length).take
        r.processed = (stream l (r.taps l.len)).1 := by
      rw [← r.taps_length l.len, ← stream_length l (r.taps l.len)]
      exact List.take_left
    rw [applyAll, r.applyDelay_eq, signal, List.flatMap_cons, stream_append]
    simp only [bind, Except.bind]
    rw [hrest, htake]
    rfl

-- ════════════════════════════════════════════════════════════════════════
-- Runs
-- ════════════════════════════════════════════════════════════════════════

/-- The values of the control cells. -/
def Controls.read (cells : Controls Ptr) (m : Memory α) : Controls α :=
  ⟨m cells.delayMs, m cells.feedback, m cells.mix⟩

/-- The ports of a run, its input and its output wherever they are. -/
structure Plugged (ports : Ports α) (input output : Ptr) (cells : Controls Ptr) : Prop where
  delayMs : ports.controlInput 2 = .ok cells.delayMs
  feedback : ports.controlInput 3 = .ok cells.feedback
  mix : ports.controlInput 4 = .ok cells.mix
  audioInput : ports.audioInput 0 = .ok ⟨input, ports.frames⟩
  audioOutput : ports.audioOutput 1 = .ok ⟨output, ports.frames⟩

/-- The ports of a run whose input and output are two buffers, as the types of the slices
promise. -/
structure Wired (ports : Ports α) (input output : Ptr) (cells : Controls Ptr) : Prop
    extends Plugged ports input output cells where
  apart : Disjoint (Slice.mk input ports.frames).region (Slice.mk output ports.frames).region

/-- The call of `apply_delay` in a run. -/
def request (sampleRate : BitVec 32) (c : Controls α) (input output : List α) : Request α where
  input := input
  output := output
  delaySamples := delaySamples c.delayMs sampleRate
  feedback := Sample.clamp c.feedback 0 feedbackCap
  mix := Sample.clamp c.mix 0 1

/-- A buffer apart from itself has no cells. -/
theorem block_of_apart {input output : Ptr} {frames : ℕ}
    (hapart : Disjoint (Slice.mk input frames).region (Slice.mk output frames).region)
    (delay : ℕ) (feedback mix : α) (l : DelayLine α) (m : Memory α) :
    block (decide (input = output)) delay feedback mix l (m.cells input frames) =
      block false delay feedback mix l (m.cells input frames) := by
  by_cases hsame : input = output
  · subst hsame
    cases frames with
    | zero => rfl
    | succ n =>
      have hself : input ∈ (Slice.mk input (n + 1)).region :=
        ⟨le_rfl, Nat.lt_add_of_pos_right (Nat.succ_pos n)⟩
      exact absurd hself (Set.disjoint_left.mp hapart hself)
  · rw [decide_eq_false hsame]

/-- What a run does to its slices is a call. -/
theorem applyDelay_request (sink : Sink Λ (DelayLogEvent α)) (delay : Delay α Λ)
    (h : delay.WellFormed) (c : Controls α) {input output : List α}
    (hlength : output.length = input.length) :
    (request delay.sampleRate c input output).applyDelay delay.buffer delay.writeIndex =
      .ok ((process sink false delay h c input).1, (process sink false delay h c input).2.buffer,
        (process sink false delay h c input).2.writeIndex) := by
  have hcall := (request delay.sampleRate c input output).applyDelay_eq (delay.line h)
  have htaps : (request delay.sampleRate c input output).taps (delay.line h).len =
      input.map fun x => ⟨x, c.delay delay, Sample.clamp c.feedback 0 feedbackCap,
        Sample.clamp c.mix 0 1⟩ := by
    show List.map _ (input.take output.length) = _
    rw [hlength, List.take_length]
    rfl
  have hrest : (request delay.sampleRate c input output).output.drop
      (request delay.sampleRate c input output).input.length = [] :=
    List.drop_eq_nil_of_le hlength.le
  rw [hrest, List.append_nil, htaps, ← block_eq_stream] at hcall
  exact hcall

/-- A run whose input and output are two buffers. -/
structure Turn (α : Type) where
  cycle : Entry.Cycle α
  input : Ptr
  output : Ptr
  cells : Controls Ptr
  wired : Wired cycle.ports input output cells

namespace Turn

def frames (t : Turn α) : ℕ := t.cycle.ports.frames

def controls (t : Turn α) : Controls α := t.cells.read t.cycle.memory

/-- The input samples. -/
def samples (t : Turn α) : List α := t.cycle.memory.cells t.input t.frames

omit [Sample α] in
@[simp] theorem samples_length (t : Turn α) : t.samples.length = t.frames :=
  Memory.cells_length ..

/-- The call of `apply_delay` in the run. -/
def request (sampleRate : BitVec 32) (t : Turn α) : Request α :=
  Delay.request sampleRate t.controls t.samples (t.cycle.memory.cells t.output t.frames)

variable (sink : Sink Λ (DelayLogEvent α)) (t : Turn α) (delay : Delay α Λ)
  (h : delay.WellFormed)

/-- **A run with two buffers** never panics, and computes a block. -/
theorem cycle_eq :
    (plugin sink).cycle delay t.cycle =
      .ok ((process sink false delay h t.controls t.samples).2,
        t.cycle.memory.overwrite t.output (process sink false delay h t.controls t.samples).1) := by
  show (run sink delay t.frames).exec t.cycle.ports t.cycle.memory = _
  rw [run_exec sink t.wired.delayMs t.wired.feedback t.wired.mix t.wired.audioInput
    t.wired.audioOutput (.inr t.wired.apart) delay h t.cycle.memory]
  unfold process
  rw [block_of_apart t.wired.apart]
  rfl

/-- What is in the output buffer behind the run. -/
theorem cells_output :
    (t.cycle.memory.overwrite t.output
        (process sink false delay h t.controls t.samples).1).cells t.output t.frames =
      (process sink false delay h t.controls t.samples).1 := by
  have hcells := Memory.cells_overwrite t.cycle.memory t.output
    (process sink false delay h t.controls t.samples).1
  rw [process_length, samples_length] at hcells
  exact hcells

theorem applyDelay_eq :
    (t.request delay.sampleRate).applyDelay delay.buffer delay.writeIndex =
      .ok ((process sink false delay h t.controls t.samples).1,
        (process sink false delay h t.controls t.samples).2.buffer,
        (process sink false delay h t.controls t.samples).2.writeIndex) :=
  applyDelay_request sink delay h t.controls (by
    rw [Memory.cells_length, samples_length])

variable {t delay} in
/-- **Invariant rule for runs**: what each sample keeps of the cells, the run keeps, and what
each output sample is when the cells are so. -/
theorem cycle_invariant {P Q : α → Prop}
    (htick : ∀ x ∈ t.samples, ∀ y, P y →
      Q ((1 - Sample.clamp t.controls.mix 0 1) * x + Sample.clamp t.controls.mix 0 1 * y) ∧
        P (x + Sample.clamp t.controls.feedback 0 feedbackCap * y))
    (h : delay.WellFormed) (hcells : ∀ y ∈ delay.buffer, P y) :
    ∃ delay' memory, (plugin sink).cycle delay t.cycle = .ok (delay', memory) ∧
      delay'.WellFormed ∧ (∀ y ∈ delay'.buffer, P y) ∧
      ∀ y ∈ memory.cells t.output t.frames, Q y := by
  obtain ⟨houts, hbuffer⟩ := block_invariant (l := delay.line h) htick hcells
  refine ⟨_, _, t.cycle_eq sink delay h, process_wellFormed sink false delay h _ _, hbuffer, ?_⟩
  rw [t.cells_output sink delay h]
  exact houts

end Turn

/-- A run on one sample. -/
def oneTurn (sample delayMs feedback mix : α) : Turn α where
  cycle :=
    { ports := { ptrs := [10, 20, 30, 31, 32], descriptors := ports, frames := 1 }
      memory := fun ptr =>
        if ptr = 10 then sample else if ptr = 30 then delayMs else if ptr = 31 then feedback
        else mix }
  input := 10
  output := 20
  cells := ⟨30, 31, 32⟩
  wired :=
    { delayMs := rfl
      feedback := rfl
      mix := rfl
      audioInput := rfl
      audioOutput := rfl
      apart := Set.disjoint_left.mpr fun _ ha ha' =>
        absurd (lt_of_le_of_lt ha'.1 ha.2) (show ¬ 20 < 10 + 1 by decide) }

/-- What is in the output buffers, each behind its run. -/
def heard {σ : Type} : List (Turn α) → List (σ × Memory α) → List α
  | t :: ts, r :: rs => r.2.cells t.output t.frames ++ heard ts rs
  | _, _ => []

/-- **Runs with two buffers**, one after the other, are calls of `apply_delay`. -/
theorem cycles_eq (sink : Sink Λ (DelayLogEvent α)) (ts : List (Turn α)) {delay : Delay α Λ}
    (h : delay.WellFormed) :
    ∃ rs line, (plugin sink).cycles delay (ts.map Turn.cycle) = .ok rs ∧
      applyAll (ts.map (Turn.request delay.sampleRate)) delay.buffer delay.writeIndex =
        .ok (heard ts rs, line) := by
  induction ts generalizing delay with
  | nil => exact ⟨[], _, rfl, rfl⟩
  | cons t ts ih =>
    obtain ⟨rs, line, hrs, hcalls⟩ := ih (process_wellFormed sink false delay h t.controls
      t.samples)
    have hprocessed : (t.request delay.sampleRate).processed =
        (process sink false delay h t.controls t.samples).1.length := by
      rw [process_length, Turn.samples_length]
      show min t.samples.length (t.cycle.memory.cells t.output t.frames).length = _
      rw [Turn.samples_length, Memory.cells_length, Nat.min_self]
    refine ⟨((process sink false delay h t.controls t.samples).2,
      t.cycle.memory.overwrite t.output
        (process sink false delay h t.controls t.samples).1) :: rs, line, ?_, ?_⟩
    · exact Entry.Plugin.cycles_cons (t.cycle_eq sink delay h) hrs
    · have hrate : (process sink false delay h t.controls t.samples).2.sampleRate =
          delay.sampleRate := rfl
      rw [hrate] at hcalls
      rw [List.map_cons, applyAll, t.applyDelay_eq sink delay h]
      simp only [bind, Except.bind, hcalls]
      rw [heard, t.cells_output sink delay h, hprocessed, List.take_length]
      rfl

end Delay
