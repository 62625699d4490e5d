import TympanLadspa.Entry.Session
import TympanLadspa.Examples.DelayRate
import TympanLadspa.Examples.DelayUsize
import TympanLadspa.Port.Lending

/-!
# The delay plugin with a write index of type `usize`

`instantiate`, `activate` and `run` on 64-bit words. The plugin never panics on ports that
`run_shim` builds, whatever is in memory, and it goes in lockstep with the plugin on natural
numbers.
-/

open Port (Panic Ports Prog Sample Slice)

namespace Delay

variable {α Λ : Type}

-- ════════════════════════════════════════════════════════════════════════
-- Runs on the ports of an instance
-- ════════════════════════════════════════════════════════════════════════

/-- The ports that `run_shim` builds for a delay: its table, and a pointer for each port. -/
structure Lent [Sample α] (ports : Ports α) : Prop where
  table : ports.descriptors = Delay.ports
  bound : ports.ptrs.length = ports.descriptors.length

variable [Sample α] {ports : Ports α}

theorem lent_of_instance {σ : Type} {P : Entry.Plugin α σ} (hports : P.ports = Delay.ports)
    (inst : Entry.Instance P) (frames : ℕ) : Lent (inst.ports frames) where
  table := hports
  bound := inst.portPtrs_length

namespace Lent

theorem controlInput (h : Lent ports) {port : ℕ} (hport : port = 2 ∨ port = 3 ∨ port = 4) :
    ∃ ptr, ports.controlInput port = .ok ptr := by
  have hkind : ports.HasKind port .controlInput := by
    rw [Ports.HasKind, h.table]
    rcases hport with rfl | rfl | rfl
    all_goals exact ⟨_, rfl, rfl⟩
  exact hkind.access h.bound

theorem slices (h : Lent ports) : ∃ input output, ports.audioInOut 0 1 = .ok (input, output) := by
  have hin : ports.HasKind 0 .audioInput := by
    rw [Ports.HasKind, h.table]
    exact ⟨_, rfl, rfl⟩
  have hout : ports.HasKind 1 .audioOutput := by
    rw [Ports.HasKind, h.table]
    exact ⟨_, rfl, rfl⟩
  obtain ⟨⟨input, output⟩, hslices⟩ := (Ports.audioInOut_iff h.bound).mpr ⟨hin, hout⟩
  exact ⟨input, output, hslices⟩

end Lent

/-- The loop does not panic on the elements that both slices have. -/
theorem processSamples_succeeds {inPort outPort len delay : ℕ} {input output : Slice}
    (hin : ports.audioInput inPort = .ok input) (hout : ports.audioOutput outPort = .ok output)
    {n i : ℕ} (hinput : i + n ≤ input.len) (houtput : i + n ≤ output.len)
    {buffer : List α} {writeIndex : ℕ} (hlen : buffer.length = len) (h : writeIndex < len)
    (feedback mix : α) :
    (processSamples inPort outPort len delay feedback mix n i buffer writeIndex).Succeeds ports
      fun _ => True := by
  induction n generalizing i buffer writeIndex with
  | zero => exact .done trivial
  | succ n ih =>
    have hpos : 0 < len := Nat.zero_lt_of_lt h
    have hread := Nat.mod_lt (writeIndex + len - delay) hpos
    obtain ⟨delayed, hdelayed⟩ : ∃ x, buffer[(writeIndex + len - delay) % len]? = some x :=
      ⟨_, List.getElem?_eq_getElem (hread.trans_eq hlen.symm)⟩
    have hload := Ports.resolve_readInput hin (show i < input.len by omega)
    simp only [processSamples, hdelayed]
    apply Prog.Succeeds.load hload
    intro x
    apply Prog.Succeeds.store (Ports.resolve_writeOutput hout (show i < output.len by omega) _)
    apply Prog.Succeeds.load hload
    intro x
    rw [if_pos (hlen ▸ h)]
    exact ih (by omega) (by omega) ((List.length_set ..).trans hlen) (Nat.mod_lt _ hpos)

/-- **Runs do not panic** on the ports of an instance. -/
theorem run_succeeds (sink : Sink Λ (DelayLogEvent α)) {delay : Delay α Λ}
    (h : delay.WellFormed) (hports : Lent ports) (frames : ℕ) :
    (run sink delay frames).Succeeds ports fun _ => True := by
  obtain ⟨delayMs, hdelayMs⟩ := hports.controlInput (.inl rfl)
  obtain ⟨feedback, hfeedback⟩ := hports.controlInput (.inr (.inl rfl))
  obtain ⟨mix, hmix⟩ := hports.controlInput (.inr (.inr rfl))
  obtain ⟨input, output, hslices⟩ := hports.slices
  obtain ⟨hin, hout⟩ := Ports.audioInOut_eq_ok.mp hslices
  apply Prog.Succeeds.load (Ports.resolve_controlInput hdelayMs)
  intro delayMs
  apply Prog.Succeeds.load (Ports.resolve_controlInput hfeedback)
  intro feedbackRaw
  apply Prog.Succeeds.load (Ports.resolve_controlInput hmix)
  intro mixRaw
  apply Prog.Succeeds.reply (Ports.resolve_audioInOut hslices)
  apply Prog.Succeeds.map.mpr
  rw [applyDelay, if_neg (Nat.ne_zero_of_lt h)]
  exact processSamples_succeeds hin hout (by omega) (by omega) rfl h _ _

namespace Usize

-- ════════════════════════════════════════════════════════════════════════
-- The plugin
-- ════════════════════════════════════════════════════════════════════════

/-- Plugin per-instance state. -/
structure State (α Λ : Type) where
  sampleRate : BitVec 32
  buffer : List α
  writeIndex : BitVec 64
  logger : Λ

/-- `as usize`, which saturates. -/
def asUsize (x : α) : BitVec 64 := BitVec.ofNat 64 (min (Sample.asUsize x) (2 ^ 64 - 1))

/-- The slots for `MAX_DELAY_MS` at a sample rate. -/
def maxSamples (α : Type) [Sample α] (sampleRate : BitVec 32) : Except Panic (BitVec 64) :=
  add (asUsize (Sample.ceil
    (maxDelayMs / Sample.ofRat 1000 * Sample.ofRat sampleRate.toNat : α))) 1#64

/-- `vec![0.0; n]`. -/
def zeros (n : BitVec 64) : Except Panic (List α) :=
  if n.toNat ≤ vecMax 64 then .ok (List.replicate n.toNat 0)
  else .error (.assertion "capacity overflow")

def instantiate (sink : Sink Λ (DelayLogEvent α)) (sampleRate : BitVec 32) :
    Except Panic (State α Λ) := do
  let maxSamples ← maxSamples α sampleRate
  let buffer ← zeros maxSamples
  return {
    sampleRate := sampleRate
    buffer := buffer
    writeIndex := 0#64
    logger := sink.new logCapacity }

namespace State

def activate (delay : State α Λ) : State α Λ :=
  { delay with buffer := List.replicate delay.buffer.length 0, writeIndex := 0#64 }

def run (sink : Sink Λ (DelayLogEvent α)) (delay : State α Λ) (_frames : ℕ) :
    Prog α (State α Λ) :=
  .load (.controlInput 2) fun delayMs =>
  .load (.controlInput 3) fun feedbackRaw =>
  let feedback := Sample.clamp feedbackRaw 0 feedbackCap
  let logger := logFeedback sink delay.logger feedbackRaw
  .load (.controlInput 4) fun mixRaw =>
  let mix := Sample.clamp mixRaw 0 1
  let delaySamples := asUsize
    (Sample.max delayMs 0 * Sample.ofRat (1 / 1000) * Sample.ofRat delay.sampleRate.toNat)
  .op (.audioInOut 0 1) fun
    | .slices input output =>
      (applyDelay delay.buffer delay.writeIndex 0 1 (min input.len output.len) delaySamples
        feedback mix).map fun line =>
          { delay with buffer := line.1, writeIndex := line.2, logger := logger }
    | _ => .fail (.assertion "not a pair of slices")

/-- The plugin behind a call; `none` is a panic. -/
def visit (sink : Sink Λ (DelayLogEvent α)) (delay : State α Λ) :
    Entry.Visit α → Option (State α Λ)
  | .activate => some delay.activate
  | .run c => ((delay.run sink c.ports.frames).exec c.ports c.memory).toOption.map Prod.fst
  | .deactivate => some delay

/-- The state with its write index as a natural number. -/
def toDelay (delay : State α Λ) : Delay α Λ where
  sampleRate := delay.sampleRate
  buffer := delay.buffer
  writeIndex := delay.writeIndex.toNat
  logger := delay.logger

end State

/-- A call comes by the shims when a run has the ports that `run_shim` builds. -/
def FromShims : Entry.Visit α → Prop
  | .run c => ∃ (σ : Type) (P : Entry.Plugin α σ) (inst : Entry.Instance P),
    P.ports = Delay.ports ∧ c.ports = inst.ports c.ports.frames
  | .activate | .deactivate => True

-- ════════════════════════════════════════════════════════════════════════
-- Lockstep with the plugin on natural numbers
-- ════════════════════════════════════════════════════════════════════════

theorem toNat_asUsize (x : α) : (asUsize x).toNat = min (Sample.asUsize x) (2 ^ 64 - 1) := by
  rw [asUsize, BitVec.toNat_ofNat]
  exact Nat.mod_eq_of_lt (by omega)

theorem zeros_eq_ok {n : BitVec 64} {buffer : List α} :
    zeros n = .ok buffer ↔ n.toNat ≤ vecMax 64 ∧ buffer = List.replicate n.toNat 0 := by
  unfold zeros
  by_cases h : n.toNat ≤ vecMax 64
  · simp [h, eq_comm]
  · simp [h]

/-- No sample rate saturates `as usize` where `+ 1` goes through. -/
theorem toNat_maxSamples {sampleRate : BitVec 32} {n : BitVec 64}
    (h : maxSamples α sampleRate = .ok n) : n.toNat = Delay.maxSamples α sampleRate := by
  have hsum := add_eq_ok.mp h
  have hlt := n.isLt
  rw [toNat_asUsize] at hsum
  have hone : (1#64).toNat = 1 := rfl
  unfold Delay.maxSamples
  omega

/-- A delay that could be allocated is the one on naturals, and holds its index. -/
theorem instantiate_eq_ok {sink : Sink Λ (DelayLogEvent α)} {sampleRate : BitVec 32}
    {delay : State α Λ} (h : instantiate sink sampleRate = .ok delay) :
    delay.toDelay = Delay.instantiate sink sampleRate ∧ Held delay.buffer delay.writeIndex := by
  obtain ⟨n, hn, h⟩ := Port.bind_eq_ok.mp h
  obtain ⟨buffer, hbuffer, h⟩ := Port.bind_eq_ok.mp h
  obtain ⟨hvec, rfl⟩ := zeros_eq_ok.mp hbuffer
  obtain rfl := Except.ok.inj h
  have hlength := toNat_maxSamples hn
  constructor
  · unfold State.toDelay Delay.instantiate
    rw [hlength]
    rfl
  · constructor
    · rwa [List.length_replicate]
    · rw [List.length_replicate, hlength]
      exact Nat.succ_pos _

/-- What saturates `as usize` is beyond the buffer in any case. -/
theorem applyDelay_saturated {buffer : List α} (h : buffer.length ≤ 2 ^ 64)
    (writeIndex inPort outPort frames n : ℕ) (feedback mix : α) :
    Delay.applyDelay buffer writeIndex inPort outPort frames (min n (2 ^ 64 - 1)) feedback mix =
      Delay.applyDelay buffer writeIndex inPort outPort frames n feedback mix := by
  have hmin : min (min n (2 ^ 64 - 1)) (buffer.length - 1) = min n (buffer.length - 1) := by
    omega
  rw [Delay.applyDelay, Delay.applyDelay, hmin]

namespace State

variable {sink : Sink Λ (DelayLogEvent α)} {delay : State α Λ}

/-- **A run** is the one on naturals. -/
theorem run_toDelay (h : Held delay.buffer delay.writeIndex) (frames : ℕ) :
    (delay.run sink frames).map toDelay = Delay.run sink delay.toDelay frames := by
  apply Prog.map_load
  intro delayMs
  apply Prog.map_load
  intro feedbackRaw
  apply Prog.map_load
  intro mixRaw
  apply Prog.map_op
  intro reply
  cases reply with
  | slices input output =>
    have hmap := h.applyDelay_map 0 1 (min input.len output.len)
      (asUsize (Sample.max delayMs 0 * Sample.ofRat (1 / 1000) *
        Sample.ofRat delay.sampleRate.toNat))
      (Sample.clamp feedbackRaw 0 feedbackCap) (Sample.clamp mixRaw 0 1)
    have hlen := h.room
    rw [toNat_asUsize, applyDelay_saturated (by omega)] at hmap
    refine Eq.trans ?_ (congrArg (Prog.map _) hmap)
    rw [Prog.map_map, Prog.map_map]
    rfl
  | _ => rfl

/-- **Step.** A call by the shims does not panic, is the one on naturals, and leaves a held
index. -/
theorem visit_lockstep (h : Held delay.buffer delay.writeIndex) {v : Entry.Visit α}
    (hv : FromShims v) :
    ∃ delay', delay.visit sink v = some delay' ∧
      (plugin sink).visit delay.toDelay v = some delay'.toDelay ∧
      Held delay'.buffer delay'.writeIndex := by
  cases v with
  | activate =>
    refine ⟨delay.activate, rfl, rfl, ?_, ?_⟩
    · exact List.length_replicate.trans_le h.vec
    · exact h.pos.trans_eq List.length_replicate.symm
  | deactivate => exact ⟨delay, rfl, rfl, h⟩
  | run c =>
    obtain ⟨σ, P, inst, hports, hc⟩ := hv
    have hlent : Lent c.ports := by
      rw [hc]
      exact lent_of_instance hports inst _
    have hwellFormed : delay.toDelay.WellFormed := h.index
    have hsucceeds := (run_succeeds sink hwellFormed hlent c.ports.frames).of_returns
      (run_keeps sink hwellFormed c.ports.frames)
    rw [← run_toDelay h, Prog.Succeeds.map] at hsucceeds
    obtain ⟨delay', memory, hexec, -, hlength, hindex⟩ := hsucceeds c.memory
    refine ⟨delay', ?_, Entry.Plugin.visit_run.mpr ⟨memory, ?_⟩, ?_, hindex⟩
    · rw [visit, hexec]
      rfl
    · show (Delay.run sink delay.toDelay c.ports.frames).exec c.ports c.memory = _
      rw [← run_toDelay h]
      exact Prog.exec_map toDelay hexec
    · exact hlength.trans_le h.vec

/-- **Run.** Any history of calls by the shims gets to its end, as the one on naturals does. -/
theorem visits_lockstep (h : Held delay.buffer delay.writeIndex) {vs : List (Entry.Visit α)}
    (hvs : ∀ v ∈ vs, FromShims v) :
    ∃ delay', Transition.run (visit sink) delay vs = some delay' ∧
      Transition.run (plugin sink).visit delay.toDelay vs = some delay'.toDelay ∧
      Held delay'.buffer delay'.writeIndex := by
  have hstep : ∀ (s : State α Λ) reference v, v ∈ vs →
      s.toDelay = reference ∧ Held s.buffer s.writeIndex →
      ∃ t reference', s.visit sink v = some t ∧
        (plugin sink).visit reference v = some reference' ∧
        t.toDelay = reference' ∧ Held t.buffer t.writeIndex := by
    rintro s _ v hv ⟨rfl, hs⟩
    obtain ⟨t, ht, ht', hheld⟩ := visit_lockstep hs (hvs v hv)
    exact ⟨t, t.toDelay, ht, ht', rfl, hheld⟩
  obtain ⟨delay', _, hrun, hreference, rfl, h'⟩ := Transition.run_lockstep hstep ⟨rfl, h⟩
  exact ⟨delay', hrun, hreference, h'⟩

end State

/-- The one thing that can go wrong is that a `Vec` cannot hold the slots. -/
theorem exists_instantiate_iff (sink : Sink Λ (DelayLogEvent α)) (sampleRate : BitVec 32) :
    (∃ delay, instantiate sink sampleRate = .ok delay) ↔
      Delay.maxSamples α sampleRate ≤ vecMax 64 := by
  constructor
  · rintro ⟨delay, h⟩
    obtain ⟨hdelay, hheld⟩ := instantiate_eq_ok h
    have hlength : delay.buffer.length = Delay.maxSamples α sampleRate :=
      (congrArg (fun d => d.buffer.length) hdelay).trans List.length_replicate
    exact hlength ▸ hheld.vec
  · intro hvec
    have hlt : vecMax 64 < 2 ^ 64 := by decide
    obtain ⟨n, hn⟩ : ∃ n : BitVec 64, n.toNat = Delay.maxSamples α sampleRate :=
      Checked.exists_toNat_eq (hvec.trans_lt hlt)
    have hmax : maxSamples α sampleRate = .ok n := by
      refine add_eq_ok.mpr ?_
      have hone : (1#64).toNat = 1 := rfl
      rw [toNat_asUsize, hn]
      unfold Delay.maxSamples at hvec ⊢
      omega
    have hzeros : zeros n = .ok (List.replicate n.toNat (0 : α)) :=
      zeros_eq_ok.mpr ⟨hn ▸ hvec, rfl⟩
    exact ⟨_, Port.bind_eq_ok.mpr ⟨n, hmax, Port.bind_eq_ok.mpr ⟨_, hzeros, rfl⟩⟩⟩

end Usize

open Usize in
/-- **The index arithmetic is safe.** With a length that a `Vec<f32>` can have and a write
index below it, an iteration neither overflows nor underflows and stays in bounds, and a call
on slices of any lengths does not panic and leaves the write index below the length. A plugin
that could be allocated has a slot, and no history of calls makes it panic or leave its
buffer. In exact arithmetic there is a buffer for every rate. -/
theorem index_safe :
    (∀ (w : ℕ) (len writeIndex delaySamples : BitVec w), 1 ≤ len.toNat →
      len.toNat ≤ (2 ^ (w - 1) - 1) / 4 → writeIndex.toNat < len.toNat →
      ∃ delay readIndex' writeIndex', offset delaySamples len = .ok delay ∧
        writeIndex.toNat + len.toNat < 2 ^ w ∧
        delay.toNat ≤ writeIndex.toNat + len.toNat ∧
        readIndex writeIndex len delay = .ok readIndex' ∧ readIndex'.toNat < len.toNat ∧
        nextIndex writeIndex len = .ok writeIndex' ∧ writeIndex'.toNat < len.toNat) ∧
    (∀ (w : ℕ) (α : Type) [Sample α] (r : Usize.Request w α) (buffer : List α)
      (writeIndex : BitVec w), 1 ≤ buffer.length → buffer.length ≤ (2 ^ (w - 1) - 1) / 4 →
      writeIndex.toNat < buffer.length →
      ∃ output' buffer' writeIndex',
        r.applyDelay buffer writeIndex = .ok (output', buffer', writeIndex') ∧
        buffer'.length = buffer.length ∧ writeIndex'.toNat < buffer'.length) ∧
    (∀ (α Λ : Type) [Sample α] (sink : Sink Λ (DelayLogEvent α)) (sampleRate : BitVec 32)
      (delay : State α Λ), Usize.instantiate sink sampleRate = .ok delay →
      0 < delay.buffer.length ∧
        ∀ vs : List (Entry.Visit α), (∀ v ∈ vs, FromShims v) →
          ∃ delay', Transition.run (State.visit sink) delay vs = some delay' ∧
            delay'.writeIndex.toNat < delay'.buffer.length) ∧
    ∀ (Λ : Type) (sink : Sink Λ (DelayLogEvent ℚ)) (sampleRate : BitVec 32),
      ∃ delay, Usize.instantiate sink sampleRate = .ok delay := by
  refine ⟨?_, ?_, ?_, ?_⟩
  · intro w len writeIndex delaySamples hpos hmax hindex
    obtain ⟨delay, hoffset, hdelay⟩ := exists_offset hpos delaySamples
    have hroom : InRoom len writeIndex := ⟨two_mul_le_of_vecMax hpos hmax, hindex⟩
    have hclamped : delay.toNat ≤ len.toNat := by omega
    obtain ⟨readIndex', writeIndex', hread, hnext, -, hlt, -, hroom'⟩ := hroom.step hclamped
    obtain ⟨hsum, hdifference, -, -⟩ := readIndex_eq_ok.mp hread
    exact ⟨delay, readIndex', writeIndex', hoffset, hsum, hdifference, hread, hlt, hnext,
      hroom'.index⟩
  · intro w α _ r buffer writeIndex _ hmax hindex
    have hheld : Held buffer writeIndex := ⟨hmax, hindex⟩
    obtain ⟨output', buffer', writeIndex', hcall, -, hlength, hheld'⟩ := hheld.applyDelay_eq r
    exact ⟨output', buffer', writeIndex', hcall, hlength, hheld'.index⟩
  · intro α Λ _ sink sampleRate delay hdelay
    obtain ⟨-, hheld⟩ := instantiate_eq_ok hdelay
    refine ⟨hheld.pos, fun vs hvs => ?_⟩
    obtain ⟨delay', hrun, -, hheld'⟩ := State.visits_lockstep hheld hvs
    exact ⟨delay', hrun, hheld'.index⟩
  · intro Λ sink sampleRate
    have hlt := sampleRate.isLt
    refine (exists_instantiate_iff sink sampleRate).mpr ?_
    rw [maxSamples_eq]
    unfold vecMax
    omega

end Delay
