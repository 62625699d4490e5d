import TympanLadspa.Examples.DelaySlices
import TympanLadspa.Foundations.Checked

/-!
# `apply_delay` with indices of type `usize`

The rest of this model counts in natural numbers. Here `write_index`, `len` and
`delay_samples` are words, and every operation on them panics where it does in a debug build.
None does, so that the natural numbers lose nothing: the loops and the calls on words are
those on naturals.
-/

namespace Delay.Usize

open Port (Ports Panic Prog Sample)

variable {w : ℕ} {α Λ : Type}

-- ════════════════════════════════════════════════════════════════════════
-- `apply_delay`
-- ════════════════════════════════════════════════════════════════════════

/-- The panic of a checked operation. -/
def orPanic {β : Type} (message : String) : Option β → Except Panic β
  | none => .error (.assertion message)
  | some b => .ok b

def add (x y : BitVec w) : Except Panic (BitVec w) :=
  orPanic "attempt to add with overflow" (Checked.add x y)

def sub (x y : BitVec w) : Except Panic (BitVec w) :=
  orPanic "attempt to subtract with overflow" (Checked.sub x y)

def rem (x y : BitVec w) : Except Panic (BitVec w) :=
  orPanic "attempt to calculate the remainder with a divisor of zero" (Checked.rem x y)

/-- `delay_samples.min(len - 1)`. -/
def offset (delaySamples len : BitVec w) : Except Panic (BitVec w) := do
  let last ← sub len 1#w
  return if delaySamples.toNat ≤ last.toNat then delaySamples else last

/-- `(*write_index + len - delay) % len`. -/
def readIndex (writeIndex len delay : BitVec w) : Except Panic (BitVec w) := do
  let sum ← add writeIndex len
  let difference ← sub sum delay
  rem difference len

/-- `(*write_index + 1) % len`. -/
def nextIndex (writeIndex len : BitVec w) : Except Panic (BitVec w) := do
  let sum ← add writeIndex 1#w
  rem sum len

/-- `buffer[index]`, read. -/
def read (buffer : List α) (index : BitVec w) : Except Panic α :=
  match buffer[index.toNat]? with
  | none => .error (.indexOutOfBounds buffer.length index.toNat)
  | some x => .ok x

/-- `buffer[index]`, written. -/
def write (buffer : List α) (index : BitVec w) (value : α) : Except Panic (List α) :=
  if index.toNat < buffer.length then .ok (buffer.set index.toNat value)
  else .error (.indexOutOfBounds buffer.length index.toNat)

section

variable [Sample α]

/-- The loop of `apply_delay` on slices. -/
def zipSamples (len delay : BitVec w) (feedback mix : α) :
    List α → List α → List α → BitVec w → Except Panic (List α × List α × BitVec w)
  | x :: input, _ :: output, buffer, writeIndex => do
    let readIndex ← readIndex writeIndex len delay
    let delayed ← read buffer readIndex
    let buffer' ← write buffer writeIndex (x + feedback * delayed)
    let writeIndex' ← nextIndex writeIndex len
    let (output', line) ← zipSamples len delay feedback mix input output buffer' writeIndex'
    return (((1 - mix) * x + mix * delayed) :: output', line)
  | _, output, buffer, writeIndex => .ok (output, buffer, writeIndex)

/-- The arguments of a call of `apply_delay`, but for the delay line. -/
structure Request (w : ℕ) (α : Type) where
  input : List α
  output : List α
  delaySamples : BitVec w
  feedback : α
  mix : α

/-- `apply_delay` on slices: the output, the buffer and the write index behind a call. -/
def Request.applyDelay (r : Request w α) (buffer : List α) (writeIndex : BitVec w) :
    Except Panic (List α × List α × BitVec w) :=
  let len := BitVec.ofNat w buffer.length
  if len.toNat = 0 then .ok (r.output, buffer, writeIndex)
  else do
    let delay ← offset r.delaySamples len
    zipSamples len delay r.feedback r.mix r.input r.output buffer writeIndex

/-- A step that can panic, and what follows its result. -/
def attempt {β σ : Type} (x : Except Panic β) (next : β → Prog α σ) : Prog α σ :=
  match x with
  | .error panic => .fail panic
  | .ok b => next b

/-- The loop of `apply_delay` on an audio input and an audio output. -/
def processSamples (inPort outPort : ℕ) (len delay : BitVec w) (feedback mix : α) :
    ℕ → ℕ → List α → BitVec w → Prog α (List α × BitVec w)
  | 0, _, buffer, writeIndex => .done (buffer, writeIndex)
  | n + 1, i, buffer, writeIndex =>
    attempt (readIndex writeIndex len delay) fun readIndex =>
    attempt (read buffer readIndex) fun delayed =>
    .load (.readInput inPort i) fun x =>
    .store (.writeOutput outPort i ((1 - mix) * x + mix * delayed)) <|
    .load (.readInput inPort i) fun x =>
    attempt (write buffer writeIndex (x + feedback * delayed)) fun buffer' =>
    attempt (nextIndex writeIndex len) fun writeIndex' =>
    processSamples inPort outPort len delay feedback mix n (i + 1) buffer' writeIndex'

/-- `apply_delay` on the slices of two ports, `frames` samples that both have. -/
def applyDelay (buffer : List α) (writeIndex : BitVec w) (inPort outPort frames : ℕ)
    (delaySamples : BitVec w) (feedback mix : α) : Prog α (List α × BitVec w) :=
  let len := BitVec.ofNat w buffer.length
  if len.toNat = 0 then .done (buffer, writeIndex)
  else
    attempt (offset delaySamples len) fun delay =>
    processSamples inPort outPort len delay feedback mix frames 0 buffer writeIndex

end

-- ════════════════════════════════════════════════════════════════════════
-- The index arithmetic
-- ════════════════════════════════════════════════════════════════════════

theorem orPanic_eq_ok {β : Type} {message : String} {x : Option β} {b : β} :
    orPanic message x = .ok b ↔ x = some b := by
  cases x <;> simp [orPanic]

variable {x y z : BitVec w}

theorem add_eq_ok : add x y = .ok z ↔ z.toNat = x.toNat + y.toNat :=
  orPanic_eq_ok.trans Checked.add_eq_some_iff

theorem sub_eq_ok : sub x y = .ok z ↔ z.toNat + y.toNat = x.toNat :=
  orPanic_eq_ok.trans Checked.sub_eq_some_iff

theorem rem_eq_ok : rem x y = .ok z ↔ 0 < y.toNat ∧ z.toNat = x.toNat % y.toNat :=
  orPanic_eq_ok.trans Checked.rem_eq_some_iff

variable {len delay writeIndex index : BitVec w}

/-- **The read index** is computed exactly when neither step of it leaves the words. -/
theorem readIndex_eq_ok : readIndex writeIndex len delay = .ok index ↔
    writeIndex.toNat + len.toNat < 2 ^ w ∧ delay.toNat ≤ writeIndex.toNat + len.toNat ∧
      0 < len.toNat ∧
      index.toNat = (writeIndex.toNat + len.toNat - delay.toNat) % len.toNat := by
  simp only [readIndex, Port.bind_eq_ok, add_eq_ok, sub_eq_ok, rem_eq_ok]
  constructor
  · rintro ⟨sum, hsum, difference, hdifference, hlen, hindex⟩
    have hlt := sum.isLt
    refine ⟨by omega, by omega, hlen, ?_⟩
    rw [hindex, ← hsum, ← hdifference, Nat.add_sub_cancel]
  · rintro ⟨hlt, hle, hlen, hindex⟩
    obtain ⟨sum, hsum⟩ := Checked.exists_toNat_eq hlt
    obtain ⟨difference, hdifference⟩ : ∃ z : BitVec w,
        z.toNat = writeIndex.toNat + len.toNat - delay.toNat :=
      Checked.exists_toNat_eq (by omega)
    exact ⟨sum, hsum, difference, by omega, hlen, by rw [hindex, hdifference]⟩

theorem toNat_one (h : 0 < len.toNat) : (1#w).toNat = 1 := by
  have hlt := len.isLt
  rw [BitVec.toNat_ofNat]
  exact Nat.mod_eq_of_lt (by omega)

theorem nextIndex_eq_ok (h : 0 < len.toNat) : nextIndex writeIndex len = .ok index ↔
    writeIndex.toNat + 1 < 2 ^ w ∧ index.toNat = (writeIndex.toNat + 1) % len.toNat := by
  simp only [nextIndex, Port.bind_eq_ok, add_eq_ok, rem_eq_ok, toNat_one h]
  constructor
  · rintro ⟨sum, hsum, -, hindex⟩
    have hlt := sum.isLt
    exact ⟨by omega, by rw [hindex, hsum]⟩
  · rintro ⟨hlt, hindex⟩
    obtain ⟨sum, hsum⟩ := Checked.exists_toNat_eq hlt
    exact ⟨sum, hsum, h, by rw [hindex, hsum]⟩

/-- The offset stays below the length. -/
theorem exists_offset (h : 0 < len.toNat) (delaySamples : BitVec w) :
    ∃ delay, offset delaySamples len = .ok delay ∧
      delay.toNat = min delaySamples.toNat (len.toNat - 1) := by
  obtain ⟨last, hlast⟩ : ∃ last : BitVec w, last.toNat = len.toNat - 1 :=
    Checked.exists_toNat_eq (by have := len.isLt; omega)
  have hsub : sub len 1#w = .ok last := sub_eq_ok.mpr (by rw [toNat_one h]; omega)
  refine ⟨_, by rw [offset, hsub]; rfl, ?_⟩
  by_cases hle : delaySamples.toNat ≤ last.toNat
  · rw [if_pos hle]
    omega
  · rw [if_neg hle]
    omega

/-- A length with room for a sum of two indices, and an index below it. -/
structure InRoom (len writeIndex : BitVec w) : Prop where
  room : 2 * len.toNat ≤ 2 ^ w
  index : writeIndex.toNat < len.toNat

namespace InRoom

/-- **Step.** The index arithmetic of an iteration does not panic. -/
theorem step (h : InRoom len writeIndex) (hdelay : delay.toNat ≤ len.toNat) :
    ∃ readIndex' writeIndex', readIndex writeIndex len delay = .ok readIndex' ∧
      nextIndex writeIndex len = .ok writeIndex' ∧
      readIndex'.toNat = (writeIndex.toNat + len.toNat - delay.toNat) % len.toNat ∧
      readIndex'.toNat < len.toNat ∧
      writeIndex'.toNat = (writeIndex.toNat + 1) % len.toNat ∧ InRoom len writeIndex' := by
  have hroom := h.room
  have hindex := h.index
  have hpos : 0 < len.toNat := Nat.zero_lt_of_lt hindex
  have hback := Nat.mod_lt (writeIndex.toNat + len.toNat - delay.toNat) hpos
  have hnext := Nat.mod_lt (writeIndex.toNat + 1) hpos
  obtain ⟨readIndex', hread⟩ : ∃ z : BitVec w,
      z.toNat = (writeIndex.toNat + len.toNat - delay.toNat) % len.toNat :=
    Checked.exists_toNat_eq (hback.trans len.isLt)
  obtain ⟨writeIndex', hwrite⟩ : ∃ z : BitVec w,
      z.toNat = (writeIndex.toNat + 1) % len.toNat :=
    Checked.exists_toNat_eq (hnext.trans len.isLt)
  refine ⟨readIndex', writeIndex', readIndex_eq_ok.mpr ⟨by omega, by omega, hpos, hread⟩,
    (nextIndex_eq_ok hpos).mpr ⟨by omega, hwrite⟩, hread, ?_, hwrite, hroom, ?_⟩
  · rwa [hread]
  · rwa [hwrite]

end InRoom

-- ════════════════════════════════════════════════════════════════════════
-- The loops
-- ════════════════════════════════════════════════════════════════════════

section Loops

theorem read_eq_ok {buffer : List α} {x : α} (h : buffer[index.toNat]? = some x) :
    read buffer index = .ok x := by
  rw [read, h]

theorem write_eq_ok {buffer : List α} (h : index.toNat < buffer.length) (x : α) :
    write buffer index x = .ok (buffer.set index.toNat x) := if_pos h

variable [Sample α] {buffer : List α}

omit [Sample α] in
/-- The accesses of an iteration do not panic either, and are those on naturals. -/
theorem InRoom.accesses (h : InRoom len writeIndex) (hdelay : delay.toNat ≤ len.toNat)
    (hlen : buffer.length = len.toNat) :
    ∃ readIndex' delayed writeIndex', readIndex writeIndex len delay = .ok readIndex' ∧
      read buffer readIndex' = .ok delayed ∧
      buffer[(writeIndex.toNat + len.toNat - delay.toNat) % len.toNat]? = some delayed ∧
      (∀ x, write buffer writeIndex x = .ok (buffer.set writeIndex.toNat x)) ∧
      nextIndex writeIndex len = .ok writeIndex' ∧
      (writeIndex.toNat + 1) % len.toNat = writeIndex'.toNat ∧ InRoom len writeIndex' := by
  obtain ⟨readIndex', writeIndex', hread, hnext, hreadNat, hlt, hnextNat, h'⟩ := h.step hdelay
  obtain ⟨delayed, hget⟩ : ∃ x, buffer[readIndex'.toNat]? = some x :=
    ⟨_, List.getElem?_eq_getElem (hlt.trans_eq hlen.symm)⟩
  refine ⟨readIndex', delayed, writeIndex', hread, read_eq_ok hget, ?_,
    write_eq_ok (hlen ▸ h.index), hnext, hnextNat.symm, h'⟩
  rwa [← hreadNat]

/-- **The loop on slices** does not panic, and is the one on naturals. -/
theorem InRoom.zipSamples_eq (h : InRoom len writeIndex) (hdelay : delay.toNat ≤ len.toNat)
    (hlen : buffer.length = len.toNat) (feedback mix : α) (input output : List α) :
    ∃ output' buffer' writeIndex',
      zipSamples len delay feedback mix input output buffer writeIndex =
        .ok (output', buffer', writeIndex') ∧
      Delay.zipSamples len.toNat delay.toNat feedback mix input output buffer writeIndex.toNat =
        .ok (output', buffer', writeIndex'.toNat) ∧
      buffer'.length = len.toNat ∧ InRoom len writeIndex' := by
  induction input generalizing output buffer writeIndex with
  | nil => exact ⟨output, buffer, writeIndex, rfl, rfl, hlen, h⟩
  | cons x input ih =>
    cases output with
    | nil => exact ⟨[], buffer, writeIndex, rfl, rfl, hlen, h⟩
    | cons y output =>
      obtain ⟨readIndex', delayed, writeIndex', hindex, hread, hget, hwrite, hnext, hnat, h'⟩ :=
        h.accesses hdelay hlen
      have hlen' : (buffer.set writeIndex.toNat (x + feedback * delayed)).length = len.toNat :=
        (List.length_set ..).trans hlen
      obtain ⟨outs, buffer', last, hwords, hnats, hlength, hlast⟩ := ih h' hlen' output
      refine ⟨((1 - mix) * x + mix * delayed) :: outs, buffer', last, ?_, ?_, hlength, hlast⟩
      · simp only [zipSamples, hindex, hread, hwrite, hnext, hwords, bind, Except.bind]
        rfl
      · have hlt : writeIndex.toNat < buffer.length := hlen ▸ h.index
        simp only [Delay.zipSamples, hget, hnat, hnats, if_pos hlt, bind, Except.bind]
        rfl

/-- **The loop on ports** is the one on naturals. -/
theorem InRoom.processSamples_eq (h : InRoom len writeIndex) (hdelay : delay.toNat ≤ len.toNat)
    (hlen : buffer.length = len.toNat) (feedback mix : α) (inPort outPort n i : ℕ) :
    (processSamples inPort outPort len delay feedback mix n i buffer writeIndex).map
        (Prod.map id BitVec.toNat) =
      Delay.processSamples inPort outPort len.toNat delay.toNat feedback mix n i buffer
        writeIndex.toNat := by
  induction n generalizing i buffer writeIndex with
  | zero => rfl
  | succ n ih =>
    obtain ⟨readIndex', delayed, writeIndex', hindex, hread, hget, hwrite, hnext, hnat, h'⟩ :=
      h.accesses hdelay hlen
    have hlt : writeIndex.toNat < buffer.length := hlen ▸ h.index
    simp only [processSamples, Delay.processSamples, hindex, hread, hget, hwrite, hnext, hnat,
      if_pos hlt, attempt]
    apply Prog.map_load
    intro x
    apply Prog.map_store
    apply Prog.map_load
    intro x
    exact ih h' ((List.length_set ..).trans hlen) (i + 1)

end Loops

-- ════════════════════════════════════════════════════════════════════════
-- Calls
-- ════════════════════════════════════════════════════════════════════════

/-- The elements that a `Vec<f32>` holds at most: `isize::MAX` bytes. -/
def vecMax (w : ℕ) : ℕ := (2 ^ (w - 1) - 1) / 4

/-- A buffer that a `Vec` can hold, with an index in it. -/
structure Held (buffer : List α) (writeIndex : BitVec w) : Prop where
  vec : buffer.length ≤ vecMax w
  index : writeIndex.toNat < buffer.length

theorem two_mul_le_of_vecMax {n : ℕ} (hpos : 0 < n) (h : n ≤ vecMax w) : 2 * n ≤ 2 ^ w := by
  unfold vecMax at h
  cases w with
  | zero => omega
  | succ v =>
    rw [Nat.add_sub_cancel] at h
    rw [pow_succ]
    omega

namespace Held

variable {buffer : List α}

theorem pos (h : Held buffer writeIndex) : 0 < buffer.length := Nat.zero_lt_of_lt h.index

theorem room (h : Held buffer writeIndex) : 2 * buffer.length ≤ 2 ^ w :=
  two_mul_le_of_vecMax h.pos h.vec

/-- `len` is the length. -/
theorem toNat_len (h : Held buffer writeIndex) :
    (BitVec.ofNat w buffer.length).toNat = buffer.length := by
  have hroom := h.room
  have hpos := h.pos
  rw [BitVec.toNat_ofNat]
  exact Nat.mod_eq_of_lt (by omega)

theorem inRoom (h : Held buffer writeIndex) :
    InRoom (BitVec.ofNat w buffer.length) writeIndex where
  room := by
    rw [h.toNat_len]
    exact h.room
  index := by
    rw [h.toNat_len]
    exact h.index

/-- The offset of a call, which is the one on naturals. -/
theorem exists_offset (h : Held buffer writeIndex) (delaySamples : BitVec w) :
    ∃ delay, offset delaySamples (BitVec.ofNat w buffer.length) = .ok delay ∧
      delay.toNat = min delaySamples.toNat (buffer.length - 1) := by
  have hpos : 0 < (BitVec.ofNat w buffer.length).toNat := h.toNat_len.symm ▸ h.pos
  obtain ⟨delay, hoffset, hdelay⟩ := Usize.exists_offset hpos delaySamples
  rw [h.toNat_len] at hdelay
  exact ⟨delay, hoffset, hdelay⟩

end Held

section Calls

variable [Sample α] {buffer : List α}

/-- The call with its delay as a natural number. -/
def Request.toNat {α : Type} (r : Request w α) : Delay.Request α where
  input := r.input
  output := r.output
  delaySamples := r.delaySamples.toNat
  feedback := r.feedback
  mix := r.mix

/-- **A call on slices** does not panic, and is the one on naturals. -/
theorem Held.applyDelay_eq (h : Held buffer writeIndex) (r : Request w α) :
    ∃ output' buffer' writeIndex',
      r.applyDelay buffer writeIndex = .ok (output', buffer', writeIndex') ∧
      r.toNat.applyDelay buffer writeIndex.toNat = .ok (output', buffer', writeIndex'.toNat) ∧
      buffer'.length = buffer.length ∧ Held buffer' writeIndex' := by
  have hlen := h.toNat_len
  have hpos : buffer.length ≠ 0 := h.pos.ne'
  obtain ⟨delay, hoffset, hdelay⟩ := h.exists_offset r.delaySamples
  have hle : delay.toNat ≤ (BitVec.ofNat w buffer.length).toNat := by omega
  obtain ⟨output', buffer', writeIndex', hwords, hnats, hlength, hlast⟩ :=
    h.inRoom.zipSamples_eq hle hlen.symm r.feedback r.mix r.input r.output
  rw [hlen] at hlength
  refine ⟨output', buffer', writeIndex', ?_, ?_, hlength, ?_, ?_⟩
  · rw [Request.applyDelay]
    simp only [hlen, if_neg hpos, hoffset, bind, Except.bind]
    exact hwords
  · rw [Delay.Request.applyDelay, Request.toNat, if_neg hpos, ← hdelay, ← hlen]
    exact hnats
  · rw [hlength]
    exact h.vec
  · rw [hlength, ← hlen]
    exact hlast.index

/-- **A call on ports** is the one on naturals. -/
theorem Held.applyDelay_map (h : Held buffer writeIndex) (inPort outPort frames : ℕ)
    (delaySamples : BitVec w) (feedback mix : α) :
    (applyDelay buffer writeIndex inPort outPort frames delaySamples feedback mix).map
        (Prod.map id BitVec.toNat) =
      Delay.applyDelay buffer writeIndex.toNat inPort outPort frames delaySamples.toNat feedback
        mix := by
  have hlen := h.toNat_len
  have hpos : buffer.length ≠ 0 := h.pos.ne'
  obtain ⟨delay, hoffset, hdelay⟩ := h.exists_offset delaySamples
  have hle : delay.toNat ≤ (BitVec.ofNat w buffer.length).toNat := by omega
  rw [applyDelay, Delay.applyDelay, if_neg hpos, ← hdelay]
  simp only [hlen, if_neg hpos, hoffset, attempt]
  rw [h.inRoom.processSamples_eq hle hlen.symm, hlen]

end Calls

end Delay.Usize
