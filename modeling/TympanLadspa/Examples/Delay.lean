import TympanLadspa.Entry.Plugin
import TympanLadspa.Port.Sample

/-!
# The delay plugin

The plugin of `examples/delay`. Its logger is any queue the realtime side can log to: what
becomes of the events is no concern of the audio.
-/

open Port (PortDescriptor Prog Sample)

/-- The realtime side of a log queue of events `ε`; `new` makes one whose thread can be
spawned. -/
structure Sink (Λ ε : Type) where
  new : ℕ → Λ
  log : Λ → ε → Bool × Λ

inductive DelayLogEvent (α : Type)
  | feedbackClamped (requested : α)

/-- Plugin per-instance state. -/
structure Delay (α Λ : Type) where
  sampleRate : BitVec 32
  buffer : List α
  writeIndex : ℕ
  logger : Λ

namespace Delay

variable {α Λ : Type} [Sample α]

def maxDelayMs : α := Sample.ofRat 2000
def feedbackCap : α := Sample.ofRat (95 / 100)
def logCapacity : ℕ := 64

def ports : List (PortDescriptor α) :=
  [.audioInput "In", .audioOutput "Out",
    ((PortDescriptor.controlInput "Delay (ms)").withDefault .hundred).withBounds 0 maxDelayMs,
    ((PortDescriptor.controlInput "Feedback").withDefault .middle).withBounds 0 feedbackCap,
    ((PortDescriptor.controlInput "Mix").withDefault .middle).withBounds 0 1]

/-- The slots for `MAX_DELAY_MS` at a sample rate. -/
def maxSamples (α : Type) [Sample α] (sampleRate : BitVec 32) : ℕ :=
  Sample.asUsize (Sample.ceil
    (maxDelayMs / Sample.ofRat 1000 * Sample.ofRat sampleRate.toNat : α)) + 1

/-- Where the memory for the buffer and the thread of the log can be had. -/
def instantiate (sink : Sink Λ (DelayLogEvent α)) (sampleRate : BitVec 32) : Delay α Λ :=
  { sampleRate := sampleRate
    buffer := List.replicate (maxSamples α sampleRate) 0
    writeIndex := 0
    logger := sink.new logCapacity }

def activate (delay : Delay α Λ) : Delay α Λ :=
  { delay with buffer := List.replicate delay.buffer.length 0, writeIndex := 0 }

/-- The loop of `apply_delay` on an audio input and an audio output: `n` samples from `i`
on. The input sample is read for the output and, after that is written, for the buffer. -/
def processSamples (inPort outPort len delay : ℕ) (feedback mix : α) :
    ℕ → ℕ → List α → ℕ → Prog α (List α × ℕ)
  | 0, _, buffer, writeIndex => .done (buffer, writeIndex)
  | n + 1, i, buffer, writeIndex =>
    let readIndex := (writeIndex + len - delay) % len
    match buffer[readIndex]? with
    | none => .fail (.indexOutOfBounds buffer.length readIndex)
    | some delayed =>
      .load (.readInput inPort i) fun x =>
      .store (.writeOutput outPort i ((1 - mix) * x + mix * delayed)) <|
      .load (.readInput inPort i) fun x =>
      if writeIndex < buffer.length then
        processSamples inPort outPort len delay feedback mix n (i + 1)
          (buffer.set writeIndex (x + feedback * delayed)) ((writeIndex + 1) % len)
      else .fail (.indexOutOfBounds buffer.length writeIndex)

/-- `apply_delay` on the slices of two ports, `frames` samples that both have. -/
def applyDelay (buffer : List α) (writeIndex inPort outPort frames delaySamples : ℕ)
    (feedback mix : α) : Prog α (List α × ℕ) :=
  if buffer.length = 0 then .done (buffer, writeIndex)
  else
    processSamples inPort outPort buffer.length (min delaySamples (buffer.length - 1)) feedback
      mix frames 0 buffer writeIndex

/-- The delay in samples that a control value stands for. -/
def delaySamples (delayMs : α) (sampleRate : BitVec 32) : ℕ :=
  Sample.asUsize
    (Sample.max delayMs 0 * Sample.ofRat (1 / 1000) * Sample.ofRat sampleRate.toNat)

/-- Report a feedback above the cap; whether there was room for the event is ignored. -/
def logFeedback (sink : Sink Λ (DelayLogEvent α)) (logger : Λ) (feedbackRaw : α) : Λ :=
  if Sample.gt feedbackRaw feedbackCap then
    (sink.log logger (.feedbackClamped feedbackRaw)).2
  else logger

def run (sink : Sink Λ (DelayLogEvent α)) (delay : Delay α Λ) (_frames : ℕ) :
    Prog α (Delay α Λ) :=
  .load (.controlInput 2) fun delayMs =>
  .load (.controlInput 3) fun feedbackRaw =>
  let feedback := Sample.clamp feedbackRaw 0 feedbackCap
  let logger := logFeedback sink delay.logger feedbackRaw
  .load (.controlInput 4) fun mixRaw =>
  let mix := Sample.clamp mixRaw 0 1
  .op (.audioInOut 0 1) fun
    | .slices input output =>
      (applyDelay delay.buffer delay.writeIndex 0 1 (min input.len output.len)
        (delaySamples delayMs delay.sampleRate) feedback mix).map fun line =>
          { delay with buffer := line.1, writeIndex := line.2, logger := logger }
    | _ => .fail (.assertion "not a pair of slices")

def plugin (sink : Sink Λ (DelayLogEvent α)) : Entry.Plugin α (Delay α Λ) :=
  { uniqueId := 34567#32
    label := "tympan_delay"
    name := "Tympan Feedback Delay"
    maker := "tympan-ladspa"
    copyright := "MIT OR Apache-2.0"
    ports := ports
    instantiate := fun sampleRate => .ok (instantiate sink sampleRate)
    activate := activate
    run := run sink }

end Delay
