import TympanLadspa.Examples.Delay
import TympanLadspa.Foundations.DelayLine
import TympanLadspa.Port.Block

/-!
# A block through the delay line

What the loop of `apply_delay` makes of a block when its input and output are apart, and
what it makes of one when they are the same buffer. The two differ in the sample that goes
into the delay line: in place it is the output sample that is read back. A host may have the
two overlap in other ways, which the sweep over the memory covers as well.
-/

namespace Delay

open Port (Ptr Memory Ports Panic Prog Slice Sample)

variable {α Λ : Type}

section Block

variable [One α] [Add α] [Sub α] [Mul α]

/-- One sample; `shared` says that input and output are one buffer. -/
def tick (shared : Bool) (delay : ℕ) (feedback mix : α) (l : DelayLine α) (x : α) :
    α × DelayLine α :=
  let out := (1 - mix) * x + mix * l.ago delay
  (out, l.push ((if shared then out else x) + feedback * l.ago delay))

/-- A block of samples. -/
def block (shared : Bool) (delay : ℕ) (feedback mix : α) :
    DelayLine α → List α → List α × DelayLine α
  | l, [] => ([], l)
  | l, x :: xs =>
    let (out, l') := tick shared delay feedback mix l x
    let (outs, l'') := block shared delay feedback mix l' xs
    (out :: outs, l'')

variable {shared : Bool} {delay : ℕ} {feedback mix : α}

theorem block_cons (l : DelayLine α) (x : α) (xs : List α) :
    block shared delay feedback mix l (x :: xs) =
      ((tick shared delay feedback mix l x).1 ::
          (block shared delay feedback mix (tick shared delay feedback mix l x).2 xs).1,
        (block shared delay feedback mix (tick shared delay feedback mix l x).2 xs).2) := rfl

@[simp] theorem len_tick (l : DelayLine α) (x : α) :
    (tick shared delay feedback mix l x).2.len = l.len := DelayLine.len_push l _

@[simp] theorem block_length (l : DelayLine α) (xs : List α) :
    (block shared delay feedback mix l xs).1.length = xs.length := by
  induction xs generalizing l with
  | nil => rfl
  | cons x xs ih => rw [block_cons, List.length_cons, ih, List.length_cons]

/-- **Invariant rule for blocks**: what each sample keeps of the cells, the block keeps, and
what each output sample is when the cells are so. -/
theorem block_invariant {P Q : α → Prop} {xs : List α}
    (htick : ∀ x ∈ xs, ∀ y, P y → Q ((1 - mix) * x + mix * y) ∧ P (x + feedback * y))
    {l : DelayLine α} (hl : ∀ y ∈ l.buffer, P y) :
    (∀ y ∈ (block false delay feedback mix l xs).1, Q y) ∧
      ∀ y ∈ (block false delay feedback mix l xs).2.buffer, P y := by
  induction xs generalizing l with
  | nil => exact ⟨nofun, hl⟩
  | cons x xs ih =>
    obtain ⟨hout, hkept⟩ := htick x List.mem_cons_self (l.ago delay) (hl _ (l.ago_mem delay))
    have hnext : ∀ y ∈ (tick false delay feedback mix l x).2.buffer, P y := by
      intro y hy
      rcases DelayLine.mem_push hy with hold | rfl
      · exact hl y hold
      · exact hkept
    obtain ⟨houts, hlast⟩ := ih (fun y hy => htick y (List.mem_cons_of_mem x hy)) hnext
    rw [block_cons]
    exact ⟨List.forall_mem_cons.mpr ⟨hout, houts⟩, hlast⟩

end Block

section Sweep

variable [One α] [Add α] [Sub α] [Mul α]

/-- `n` samples from `input` to `output`, wherever they are: the line and the memory behind
them. -/
def sweep (delay : ℕ) (feedback mix : α) :
    ℕ → Ptr → Ptr → DelayLine α → Memory α → DelayLine α × Memory α
  | 0, _, _, l, m => (l, m)
  | n + 1, input, output, l, m =>
    let m' := Function.update m output ((1 - mix) * m input + mix * l.ago delay)
    sweep delay feedback mix n (input + 1) (output + 1)
      (l.push (m' input + feedback * l.ago delay)) m'

variable {delay : ℕ} {feedback mix : α}

theorem sweep_succ (n : ℕ) (input output : Ptr) (l : DelayLine α) (m : Memory α) :
    sweep delay feedback mix (n + 1) input output l m =
      sweep delay feedback mix n (input + 1) (output + 1)
        (l.push (Function.update m output ((1 - mix) * m input + mix * l.ago delay) input +
          feedback * l.ago delay))
        (Function.update m output ((1 - mix) * m input + mix * l.ago delay)) := rfl

/-- **The sweep is the block** on the line, when the buffers are the same or apart. -/
theorem sweep_of_apart {input output : Ptr} {frames : ℕ}
    (hapart : input = output ∨
      Disjoint (Slice.mk input frames).region (Slice.mk output frames).region)
    {n i : ℕ} (hn : i + n = frames) (l : DelayLine α) (m : Memory α) :
    sweep delay feedback mix n (input + i) (output + i) l m =
      ((block (decide (input = output)) delay feedback mix l (m.cells (input + i) n)).2,
        m.overwrite (output + i)
          (block (decide (input = output)) delay feedback mix l (m.cells (input + i) n)).1) := by
  induction n generalizing i l m with
  | zero => rfl
  | succ n ih =>
    have hi : i < frames := by omega
    have hback := Memory.update_apart hi hi hapart m ((1 - mix) * m (input + i) + mix * l.ago delay)
    have hcells := Memory.cells_update_apart (i := i) (n := n) (by omega) hapart m
      ((1 - mix) * m (input + i) + mix * l.ago delay)
    have hrest := ih (i := i + 1) (by omega)
      (tick (decide (input = output)) delay feedback mix l (m (input + i))).2
      (Function.update m (output + i) ((1 - mix) * m (input + i) + mix * l.ago delay))
    rw [hcells] at hrest
    simp only [and_true] at hback
    rw [sweep_succ, hback]
    simp only [tick, decide_eq_true_eq] at hrest
    simp only [Memory.cells, block_cons, tick, decide_eq_true_eq]
    exact hrest

end Sweep

variable [Sample α]

/-- **The loop on memory is the sweep**, wherever the two buffers are. -/
theorem processSamples_exec {ports : Ports α} {inPort outPort frames : ℕ} {input output : Ptr}
    (hin : ports.audioInput inPort = .ok ⟨input, frames⟩)
    (hout : ports.audioOutput outPort = .ok ⟨output, frames⟩) {len delay : ℕ} {feedback mix : α}
    {n i : ℕ} (hn : i + n = frames) (l : DelayLine α) (hlen : l.len = len) (m : Memory α) :
    (processSamples inPort outPort len delay feedback mix n i l.buffer l.writeIndex).exec
        ports m =
      .ok
        (((sweep delay feedback mix n (input + i) (output + i) l m).1.buffer,
            (sweep delay feedback mix n (input + i) (output + i) l m).1.writeIndex),
          (sweep delay feedback mix n (input + i) (output + i) l m).2) := by
  induction n generalizing i l m with
  | zero => rfl
  | succ n ih =>
    subst hlen
    have hi : i < frames := by omega
    have hread : l.buffer[(l.writeIndex + l.len - delay) % l.len]? = some (l.ago delay) :=
      l.getElem?_back delay
    have hload := Ports.resolve_readInput hin hi
    simp only [processSamples, hread]
    rw [Prog.exec_load hload, Prog.exec_store (Ports.resolve_writeOutput hout hi _),
      Prog.exec_load hload, if_pos l.writeIndex_lt, sweep_succ]
    exact ih (i := i + 1) (by omega) _ (DelayLine.len_push l _) _

/-- `apply_delay` from a line that is not empty. -/
theorem applyDelay_exec {ports : Ports α} {inPort outPort frames : ℕ} {input output : Ptr}
    (hin : ports.audioInput inPort = .ok ⟨input, frames⟩)
    (hout : ports.audioOutput outPort = .ok ⟨output, frames⟩) {delaySamples : ℕ}
    {feedback mix : α} (l : DelayLine α) (m : Memory α) :
    (applyDelay l.buffer l.writeIndex inPort outPort frames delaySamples feedback mix).exec
        ports m =
      .ok
        (((sweep (min delaySamples (l.len - 1)) feedback mix frames input output l m).1.buffer,
            (sweep (min delaySamples (l.len - 1)) feedback mix frames input output l
              m).1.writeIndex),
          (sweep (min delaySamples (l.len - 1)) feedback mix frames input output l m).2) := by
  rw [applyDelay, if_neg (Nat.ne_zero_of_lt l.writeIndex_lt)]
  exact processSamples_exec hin hout (Nat.zero_add frames) l rfl m

/-- The write index is in the buffer. -/
def WellFormed (delay : Delay α Λ) : Prop := delay.writeIndex < delay.buffer.length

theorem instantiate_wellFormed (sink : Sink Λ (DelayLogEvent α)) (sampleRate : BitVec 32) :
    (instantiate sink sampleRate).WellFormed := by
  simp [WellFormed, instantiate, maxSamples]

theorem WellFormed.activate {delay : Delay α Λ} (h : delay.WellFormed) :
    delay.activate.WellFormed := by
  simpa [WellFormed, Delay.activate] using Nat.zero_lt_of_lt h

/-- The delay line of a plugin. -/
def line (delay : Delay α Λ) (h : delay.WellFormed) : DelayLine α :=
  ⟨delay.buffer, delay.writeIndex, h⟩

/-- The three control values of a run, as the host sends them. -/
structure Controls (α : Type) where
  delayMs : α
  feedback : α
  mix : α

/-- The offset a run uses. -/
def Controls.delay (c : Controls α) (delay : Delay α Λ) : ℕ :=
  min (delaySamples c.delayMs delay.sampleRate) (delay.buffer.length - 1)

/-- A `run` on a block. -/
def process (sink : Sink Λ (DelayLogEvent α)) (shared : Bool) (delay : Delay α Λ)
    (h : delay.WellFormed) (c : Controls α) (xs : List α) : List α × Delay α Λ :=
  let (outs, line) := block shared (c.delay delay) (Sample.clamp c.feedback 0 feedbackCap)
    (Sample.clamp c.mix 0 1) (delay.line h) xs
  (outs, { delay with
    buffer := line.buffer
    writeIndex := line.writeIndex
    logger := logFeedback sink delay.logger c.feedback })

theorem process_length (sink : Sink Λ (DelayLogEvent α)) (shared : Bool) (delay : Delay α Λ)
    (h : delay.WellFormed) (c : Controls α) (xs : List α) :
    (process sink shared delay h c xs).1.length = xs.length :=
  block_length _ xs

theorem process_wellFormed (sink : Sink Λ (DelayLogEvent α)) (shared : Bool)
    (delay : Delay α Λ) (h : delay.WellFormed) (c : Controls α) (xs : List α) :
    (process sink shared delay h c xs).2.WellFormed :=
  (block shared _ _ _ _ xs).2.writeIndex_lt

/-- A `run` on two pointers: the plugin and the memory behind it. -/
def swept (sink : Sink Λ (DelayLogEvent α)) (delay : Delay α Λ) (h : delay.WellFormed)
    (c : Controls α) (frames : ℕ) (input output : Ptr) (m : Memory α) : Delay α Λ × Memory α :=
  let (line, memory) := sweep (c.delay delay) (Sample.clamp c.feedback 0 feedbackCap)
    (Sample.clamp c.mix 0 1) frames input output (delay.line h) m
  ({ delay with
      buffer := line.buffer
      writeIndex := line.writeIndex
      logger := logFeedback sink delay.logger c.feedback }, memory)

/-- **What `run` computes**, wherever the host has its buffers. -/
theorem run_swept (sink : Sink Λ (DelayLogEvent α)) {ports : Ports α} {frames count : ℕ}
    {input output delayMs feedback mix : Ptr}
    (hdelay : ports.controlInput 2 = .ok delayMs)
    (hfeedback : ports.controlInput 3 = .ok feedback) (hmix : ports.controlInput 4 = .ok mix)
    (hin : ports.audioInput 0 = .ok ⟨input, frames⟩)
    (hout : ports.audioOutput 1 = .ok ⟨output, frames⟩)
    (delay : Delay α Λ) (h : delay.WellFormed) (m : Memory α) :
    (run sink delay count).exec ports m =
      .ok (swept sink delay h ⟨m delayMs, m feedback, m mix⟩ frames input output m) := by
  have hslices : ports.audioInOut 0 1 = .ok (⟨input, frames⟩, ⟨output, frames⟩) :=
    Ports.audioInOut_eq_ok.mpr ⟨hin, hout⟩
  rw [run, Prog.exec_load (Ports.resolve_controlInput hdelay),
    Prog.exec_load (Ports.resolve_controlInput hfeedback),
    Prog.exec_load (Ports.resolve_controlInput hmix),
    Prog.exec_reply (Ports.resolve_audioInOut hslices)]
  simp only [Nat.min_self]
  exact Prog.exec_map _ (applyDelay_exec hin hout (delay.line h) m)

/-- **In place or on two buffers** it is a block. -/
theorem run_exec (sink : Sink Λ (DelayLogEvent α)) {ports : Ports α} {frames count : ℕ}
    {input output delayMs feedback mix : Ptr}
    (hdelay : ports.controlInput 2 = .ok delayMs)
    (hfeedback : ports.controlInput 3 = .ok feedback) (hmix : ports.controlInput 4 = .ok mix)
    (hin : ports.audioInput 0 = .ok ⟨input, frames⟩)
    (hout : ports.audioOutput 1 = .ok ⟨output, frames⟩)
    (hapart : input = output ∨
      Disjoint (Slice.mk input frames).region (Slice.mk output frames).region)
    (delay : Delay α Λ) (h : delay.WellFormed) (m : Memory α) :
    (run sink delay count).exec ports m =
      .ok
        ((process sink (decide (input = output)) delay h ⟨m delayMs, m feedback, m mix⟩
            (m.cells input frames)).2,
          m.overwrite output (process sink (decide (input = output)) delay h
            ⟨m delayMs, m feedback, m mix⟩ (m.cells input frames)).1) := by
  rw [run_swept sink hdelay hfeedback hmix hin hout delay h m, swept,
    show sweep _ _ _ frames input output (delay.line h) m = _ from
      sweep_of_apart hapart (Nat.zero_add frames) _ _]
  rfl

/-- The loop keeps the length of the buffer and the write index in it. -/
theorem processSamples_returns {inPort outPort len delay : ℕ} {feedback mix : α} {n i : ℕ}
    {buffer : List α} {writeIndex : ℕ} (hlen : buffer.length = len) (h : writeIndex < len) :
    (processSamples inPort outPort len delay feedback mix n i buffer writeIndex).Returns
      fun line => line.1.length = len ∧ line.2 < len := by
  induction n generalizing i buffer writeIndex with
  | zero => exact ⟨hlen, h⟩
  | succ n ih =>
    rw [processSamples]
    split
    · trivial
    · refine .load fun x => .store (.load fun x => ?_)
      rw [if_pos (hlen ▸ h)]
      exact ih (List.length_set.trans hlen) (Nat.mod_lt _ (Nat.zero_lt_of_lt h))

theorem applyDelay_returns {buffer : List α} {writeIndex inPort outPort frames : ℕ}
    {delaySamples : ℕ} {feedback mix : α} (h : writeIndex < buffer.length) :
    (applyDelay buffer writeIndex inPort outPort frames delaySamples feedback mix).Returns
      fun line => line.1.length = buffer.length ∧ line.2 < line.1.length := by
  rw [applyDelay, if_neg (Nat.ne_zero_of_lt h)]
  exact (processSamples_returns rfl h).imp fun line hline =>
    ⟨hline.1, lt_of_lt_of_eq hline.2 hline.1.symm⟩

/-- A run that returns keeps the rate and the length of the buffer. -/
theorem run_keeps (sink : Sink Λ (DelayLogEvent α)) {delay : Delay α Λ}
    (h : delay.WellFormed) (count : ℕ) :
    (run sink delay count).Returns fun delay' => delay'.sampleRate = delay.sampleRate ∧
      delay'.buffer.length = delay.buffer.length ∧ delay'.WellFormed := by
  refine .load fun delayMs => .load fun feedback => .load fun mix => ?_
  rintro (_ | _ | ⟨input, output⟩ | _ | _ | _)
  case slices =>
    exact .map ((applyDelay_returns h).imp fun line hline => ⟨rfl, hline⟩)
  all_goals trivial

theorem run_returns (sink : Sink Λ (DelayLogEvent α)) {delay : Delay α Λ}
    (h : delay.WellFormed) (count : ℕ) : (run sink delay count).Returns WellFormed :=
  (run_keeps sink h count).imp fun _ hkeeps => hkeeps.2.2

end Delay
