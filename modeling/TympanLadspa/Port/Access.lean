import TympanLadspa.Port.Descriptor
import Mathlib.Data.Set.Function
import Mathlib.Data.Set.Lattice
import Mathlib.Logic.Function.Basic
import Mathlib.Order.CompletePartialOrder

/-!
# Access to the ports of a run

The accessors of `Ports` and what a plugin can do with them. Host memory is a function
from addresses of `Data` cells; address zero is NULL. A plugin's `run` is a tree of
operations on its ports: it has no other way to the memory.
-/

namespace Port

variable {α σ : Type}

/-- The address of a cell. -/
abbrev Ptr := ℕ

abbrev Memory (α : Type) := Ptr → α

/-- Why a call panicked. -/
inductive Panic
  | indexOutOfBounds (len index : ℕ)
  | assertion (message : String)
deriving Repr, DecidableEq

/-- `len` cells from `ptr` on. -/
structure Slice where
  ptr : Ptr
  len : ℕ
deriving Repr, DecidableEq

/-- A sequence of two fallible steps succeeds when both do. -/
theorem bind_eq_ok {ε β γ : Type} {x : Except ε β} {f : β → Except ε γ} {c : γ} :
    x >>= f = .ok c ↔ ∃ b, x = .ok b ∧ f b = .ok c := by
  cases x <;> simp [bind, Except.bind]

namespace Slice

/-- The address of element `i`. -/
def element (s : Slice) (i : ℕ) : Except Panic Ptr :=
  if i < s.len then .ok (s.ptr + i) else .error (.indexOutOfBounds s.len i)

/-- The addresses of the elements. -/
def region (s : Slice) : Set Ptr := {p | s.ptr ≤ p ∧ p < s.ptr + s.len}

theorem element_mem {s : Slice} {i : ℕ} {p : Ptr} (h : s.element i = .ok p) :
    p ∈ s.region := by
  unfold element at h
  split at h
  · cases h
    exact ⟨Nat.le_add_right _ _, Nat.add_lt_add_left ‹_› _⟩
  · cases h

end Slice

/-- `Ports`: the bound pointers, the port table and the number of frames. -/
structure Ports (α : Type) where
  ptrs : List Ptr
  descriptors : List (PortDescriptor α)
  frames : ℕ

namespace Ports

def assertKind (ports : Ports α) (port : ℕ) (expected : PortKind) : Except Panic Unit :=
  match ports.descriptors[port]? with
  | none => .error (.indexOutOfBounds ports.descriptors.length port)
  | some descriptor =>
    if descriptor.kind = expected then .ok ()
    else
      .error (.assertion
        s!"port {port} is declared as {descriptor.kind.debug}, but accessed as {expected.debug}")

/-- The pointer of a port, as `self.ptrs[port]` finds it. -/
def ptr (ports : Ports α) (port : ℕ) : Except Panic Ptr :=
  match ports.ptrs[port]? with
  | none => .error (.indexOutOfBounds ports.ptrs.length port)
  | some ptr => .ok ptr

/-- The pointer of a port of the expected kind. -/
def access (ports : Ports α) (port : ℕ) (expected : PortKind) : Except Panic Ptr := do
  ports.assertKind port expected
  ports.ptr port

def audioInput (ports : Ports α) (port : ℕ) : Except Panic Slice := do
  let ptr ← ports.access port .audioInput
  return ⟨ptr, ports.frames⟩

def audioOutput (ports : Ports α) (port : ℕ) : Except Panic Slice := do
  let ptr ← ports.access port .audioOutput
  return ⟨ptr, ports.frames⟩

/-- The cell `control_input` reads. -/
def controlInput (ports : Ports α) (port : ℕ) : Except Panic Ptr :=
  ports.access port .controlInput

/-- The cell `control_output` lends. -/
def controlOutput (ports : Ports α) (port : ℕ) : Except Panic Ptr :=
  ports.access port .controlOutput

def audioInOut (ports : Ports α) (inPort outPort : ℕ) : Except Panic (Slice × Slice) :=
  if inPort = outPort then
    .error (.assertion "audio_in_out: input and output port indices must differ")
  else do
    ports.assertKind inPort .audioInput
    ports.assertKind outPort .audioOutput
    let inPtr ← ports.ptr inPort
    let outPtr ← ports.ptr outPort
    return (⟨inPtr, ports.frames⟩, ⟨outPtr, ports.frames⟩)

theorem assertKind_eq_ok {ports : Ports α} {port : ℕ} {expected : PortKind} :
    ports.assertKind port expected = .ok () ↔
      ∃ descriptor, ports.descriptors[port]? = some descriptor ∧ descriptor.kind = expected := by
  unfold assertKind
  cases ports.descriptors[port]? with
  | none => simp
  | some descriptor => by_cases hkind : descriptor.kind = expected <;> simp [hkind]

theorem ptr_eq_ok {ports : Ports α} {port : ℕ} {p : Ptr} :
    ports.ptr port = .ok p ↔ ports.ptrs[port]? = some p := by
  unfold ptr
  cases ports.ptrs[port]? <;> simp

theorem access_eq_ok {ports : Ports α} {port : ℕ} {expected : PortKind} {p : Ptr} :
    ports.access port expected = .ok p ↔
      (∃ descriptor, ports.descriptors[port]? = some descriptor ∧
        descriptor.kind = expected) ∧ ports.ptrs[port]? = some p := by
  rw [access, bind_eq_ok, ← assertKind_eq_ok, ← ptr_eq_ok]
  exact ⟨fun ⟨_, hkind, hptr⟩ => ⟨hkind, hptr⟩, fun ⟨hkind, hptr⟩ => ⟨(), hkind, hptr⟩⟩

theorem audioInput_eq_ok {ports : Ports α} {port : ℕ} {s : Slice} :
    ports.audioInput port = .ok s ↔
      ports.access port .audioInput = .ok s.ptr ∧ s.len = ports.frames := by
  rw [audioInput, bind_eq_ok]
  obtain ⟨ptr, len⟩ := s
  constructor
  · rintro ⟨p, hp, heq⟩
    cases heq
    exact ⟨hp, rfl⟩
  · rintro ⟨hp, rfl⟩
    exact ⟨ptr, hp, rfl⟩

theorem audioOutput_eq_ok {ports : Ports α} {port : ℕ} {s : Slice} :
    ports.audioOutput port = .ok s ↔
      ports.access port .audioOutput = .ok s.ptr ∧ s.len = ports.frames := by
  rw [audioOutput, bind_eq_ok]
  obtain ⟨ptr, len⟩ := s
  constructor
  · rintro ⟨p, hp, heq⟩
    cases heq
    exact ⟨hp, rfl⟩
  · rintro ⟨hp, rfl⟩
    exact ⟨ptr, hp, rfl⟩

/-- `audio_in_out` succeeds exactly on an audio input and an audio output of the table. -/
theorem audioInOut_eq_ok {ports : Ports α} {inPort outPort : ℕ} {input output : Slice} :
    ports.audioInOut inPort outPort = .ok (input, output) ↔
      ports.audioInput inPort = .ok input ∧ ports.audioOutput outPort = .ok output := by
  rw [audioInput_eq_ok, audioOutput_eq_ok, access_eq_ok, access_eq_ok]
  unfold audioInOut
  by_cases hne : inPort = outPort
  · rw [if_pos hne]
    -- one port cannot have both kinds
    constructor
    · intro h
      cases h
    · rintro ⟨⟨⟨⟨d, hd, hin⟩, -⟩, -⟩, ⟨⟨e, he, hout⟩, -⟩, -⟩
      rw [hne, he] at hd
      cases hd
      rw [hin] at hout
      cases hout
  · rw [if_neg hne]
    simp only [bind_eq_ok, ptr_eq_ok]
    obtain ⟨inPtr, inLen⟩ := input
    obtain ⟨outPtr, outLen⟩ := output
    constructor
    · rintro ⟨_, hin, _, hout, p, hp, q, hq, heq⟩
      cases heq
      exact ⟨⟨⟨assertKind_eq_ok.mp hin, hp⟩, rfl⟩, ⟨assertKind_eq_ok.mp hout, hq⟩, rfl⟩
    · rintro ⟨⟨⟨hin, hp⟩, rfl⟩, ⟨hout, hq⟩, rfl⟩
      exact ⟨(), assertKind_eq_ok.mpr hin, (), assertKind_eq_ok.mpr hout, _, hp, _, hq, rfl⟩

end Ports

/-- What a plugin can do in `run`: call an accessor, or use an element of what one lends.
The ports stay the same during a run, so an element is named by its port. -/
inductive Op (α : Type)
  | frames
  | audioInput (port : ℕ)
  | audioOutput (port : ℕ)
  | controlInput (port : ℕ)
  | controlOutput (port : ℕ)
  | audioInOut (inPort outPort : ℕ)
  | readInput (port i : ℕ)
  | readOutput (port i : ℕ)
  | writeOutput (port i : ℕ) (value : α)
  | readControl (port : ℕ)
  | writeControl (port : ℕ) (value : α)

inductive Reply (α : Type)
  | frames (n : ℕ)
  | slice (s : Slice)
  | slices (input output : Slice)
  | cell (ptr : Ptr)
  | data (value : α)
  | done

/-- What an operation comes down to: a reply without memory, one load or one store. -/
inductive Effect (α : Type)
  | reply (r : Reply α)
  | load (ptr : Ptr)
  | store (ptr : Ptr) (value : α)

/-- The checks of an operation and the access it makes; no memory is needed for them. -/
def Ports.resolve (ports : Ports α) : Op α → Except Panic (Effect α)
  | .frames => .ok (.reply (.frames ports.frames))
  | .audioInput port => do return .reply (.slice (← ports.audioInput port))
  | .audioOutput port => do return .reply (.slice (← ports.audioOutput port))
  | .controlInput port => do return .load (← ports.controlInput port)
  | .controlOutput port => do return .reply (.cell (← ports.controlOutput port))
  | .audioInOut inPort outPort => do
    let (input, output) ← ports.audioInOut inPort outPort
    return .reply (.slices input output)
  | .readInput port i => do
    let s ← ports.audioInput port
    return .load (← s.element i)
  | .readOutput port i => do
    let s ← ports.audioOutput port
    return .load (← s.element i)
  | .writeOutput port i value => do
    let s ← ports.audioOutput port
    return .store (← s.element i) value
  | .readControl port => do return .load (← ports.controlOutput port)
  | .writeControl port value => do return .store (← ports.controlOutput port) value

theorem Slice.element_of_lt {s : Slice} {i : ℕ} (h : i < s.len) :
    s.element i = .ok (s.ptr + i) := if_pos h

section

variable {ports : Ports α} {port i : ℕ}

theorem Ports.resolve_controlInput {p : Ptr} (h : ports.controlInput port = .ok p) :
    ports.resolve (.controlInput port) = .ok (.load p) := by
  rw [resolve, h]
  rfl

theorem Ports.resolve_readInput {s : Slice} (h : ports.audioInput port = .ok s)
    (hi : i < s.len) : ports.resolve (.readInput port i) = .ok (.load (s.ptr + i)) := by
  simp only [resolve, h, bind, Except.bind, Slice.element_of_lt hi]
  rfl

theorem Ports.resolve_writeOutput {s : Slice} (h : ports.audioOutput port = .ok s)
    (hi : i < s.len) (value : α) :
    ports.resolve (.writeOutput port i value) = .ok (.store (s.ptr + i) value) := by
  simp only [resolve, h, bind, Except.bind, Slice.element_of_lt hi]
  rfl

theorem Ports.resolve_audioInOut {inPort outPort : ℕ} {input output : Slice}
    (h : ports.audioInOut inPort outPort = .ok (input, output)) :
    ports.resolve (.audioInOut inPort outPort) = .ok (.reply (.slices input output)) := by
  rw [resolve, h]
  rfl

end

/-- Carry out the access. -/
def Effect.apply (memory : Memory α) : Effect α → Reply α × Memory α
  | .reply r => (r, memory)
  | .load ptr => (.data (memory ptr), memory)
  | .store ptr value => (.done, Function.update memory ptr value)

/-- A `run` in progress: the state it returns, a panic of its own, or an operation and what
follows its reply. -/
inductive Prog (α σ : Type)
  | done (state : σ)
  | fail (panic : Panic)
  | op (o : Op α) (next : Reply α → Prog α σ)

/-- Execute a `run` on host memory. -/
def Prog.exec (ports : Ports α) : Prog α σ → Memory α → Except Panic (σ × Memory α)
  | done state, memory => .ok (state, memory)
  | fail panic, _ => .error panic
  | op o next, memory =>
    match ports.resolve o with
    | .error panic => .error panic
    | .ok effect => (next (effect.apply memory).1).exec ports (effect.apply memory).2

namespace Prog

/-- An operation that loads, and what follows the value. -/
def load (o : Op α) (next : α → Prog α σ) : Prog α σ :=
  .op o fun
    | .data value => next value
    | _ => .fail (.assertion "not a load")

/-- An operation that stores, and what follows it. -/
def store (o : Op α) (next : Prog α σ) : Prog α σ := .op o fun _ => next

/-- Go on with the state a `run` returns. -/
def map {τ : Type} (f : σ → τ) : Prog α σ → Prog α τ
  | done state => .done (f state)
  | fail panic => .fail panic
  | op o next => .op o fun reply => (next reply).map f

variable {ports : Ports α} {o : Op α} {p : Ptr} {value : α} {m : Memory α}

/-- An operation succeeds when its checks do, and then goes on. -/
theorem exec_op_eq_ok {next : Reply α → Prog α σ} {r : σ × Memory α} :
    (Prog.op o next).exec ports m = .ok r ↔ ∃ effect, ports.resolve o = .ok effect ∧
      (next (effect.apply m).1).exec ports (effect.apply m).2 = .ok r := by
  rw [exec]
  cases ports.resolve o <;> simp

theorem exec_load (h : ports.resolve o = .ok (.load p)) (next : α → Prog α σ) :
    (load o next).exec ports m = (next (m p)).exec ports m := by
  rw [load, exec, h]
  rfl

theorem exec_store (h : ports.resolve o = .ok (.store p value)) (next : Prog α σ) :
    (store o next).exec ports m = next.exec ports (Function.update m p value) := by
  rw [store, exec, h]
  rfl

theorem exec_reply {r : Reply α} (h : ports.resolve o = .ok (.reply r))
    (next : Reply α → Prog α σ) : (Prog.op o next).exec ports m = (next r).exec ports m := by
  rw [exec, h]
  rfl

/-- Going on with the state changes nothing else. -/
theorem exec_map_eq {τ : Type} (f : σ → τ) (prog : Prog α σ) (m : Memory α) :
    (prog.map f).exec ports m = (prog.exec ports m).map (Prod.map f id) := by
  induction prog generalizing m with
  | done s => rfl
  | fail panic => rfl
  | op o next ih =>
    rw [map, exec, exec]
    cases ports.resolve o with
    | error panic => rfl
    | ok effect => exact ih _ _

theorem map_map {τ υ : Type} (f : σ → τ) (g : τ → υ) (prog : Prog α σ) :
    (prog.map f).map g = prog.map (g ∘ f) := by
  induction prog with
  | done s => rfl
  | fail panic => rfl
  | op o next ih => exact congrArg (Prog.op o) (funext fun reply => ih reply)

/-- A map goes past a load, to what follows the value. -/
theorem map_load {τ : Type} {f : σ → τ} {next : α → Prog α σ} {next' : α → Prog α τ}
    (h : ∀ value, (next value).map f = next' value) :
    (load o next).map f = load o next' := by
  apply congrArg (Prog.op o)
  funext reply
  cases reply with
  | data value => exact h value
  | _ => rfl

/-- A map goes past an operation, to what follows the reply. -/
theorem map_op {τ : Type} {f : σ → τ} {next : Reply α → Prog α σ} {next' : Reply α → Prog α τ}
    (h : ∀ reply, (next reply).map f = next' reply) :
    (Prog.op o next).map f = .op o next' := by
  apply congrArg (Prog.op o)
  funext reply
  exact h reply

theorem map_store {τ : Type} {f : σ → τ} {next : Prog α σ} {next' : Prog α τ}
    (h : next.map f = next') : (store o next).map f = store o next' :=
  map_op fun _ => h

theorem exec_map {τ : Type} (f : σ → τ) {prog : Prog α σ} {state : σ} {m' : Memory α}
    (h : prog.exec ports m = .ok (state, m')) :
    (prog.map f).exec ports m = .ok (f state, m') := by
  rw [exec_map_eq, h]
  rfl

/-- Whatever the ports answer, a `run` that returns leaves its state in `Q`. -/
def Returns (Q : σ → Prop) : Prog α σ → Prop
  | done state => Q state
  | fail _ => True
  | op _ next => ∀ reply, (next reply).Returns Q

variable {Q : σ → Prop}

theorem Returns.load {next : α → Prog α σ} (h : ∀ value, (next value).Returns Q) :
    (load o next).Returns Q := by
  intro reply
  cases reply with
  | data value => exact h value
  | _ => trivial

theorem Returns.store {next : Prog α σ} (h : next.Returns Q) : (store o next).Returns Q :=
  fun _ => h

theorem Returns.map {τ : Type} {f : σ → τ} {R : τ → Prop} {prog : Prog α σ}
    (h : prog.Returns fun state => R (f state)) : (prog.map f).Returns R := by
  induction prog with
  | done state => exact h
  | fail panic => trivial
  | op o next ih => exact fun reply => ih reply (h reply)

theorem Returns.imp {R : σ → Prop} {prog : Prog α σ} (h : prog.Returns Q)
    (himp : ∀ state, Q state → R state) : prog.Returns R := by
  induction prog with
  | done state => exact himp state h
  | fail panic => trivial
  | op o next ih => exact fun reply => ih reply (h reply)

theorem Returns.exec {prog : Prog α σ} {state : σ} {m' : Memory α} (h : prog.Returns Q)
    (hexec : prog.exec ports m = .ok (state, m')) : Q state := by
  induction prog generalizing m with
  | done s =>
    cases hexec
    exact h
  | fail panic => cases hexec
  | op o next ih =>
    obtain ⟨effect, -, hnext⟩ := exec_op_eq_ok.mp hexec
    exact ih _ (h _) hnext

/-- On these ports a `run` does not panic and leaves its state in `Q`, whatever is in memory. -/
def Succeeds (ports : Ports α) (Q : σ → Prop) (prog : Prog α σ) : Prop :=
  ∀ m, ∃ state m', prog.exec ports m = .ok (state, m') ∧ Q state

theorem Succeeds.done {state : σ} (h : Q state) : (Prog.done state).Succeeds ports Q :=
  fun m => ⟨state, m, rfl, h⟩

theorem Succeeds.load {next : α → Prog α σ} (hload : ports.resolve o = .ok (.load p))
    (h : ∀ value, (next value).Succeeds ports Q) : (load o next).Succeeds ports Q := by
  intro m
  rw [exec_load hload]
  exact h (m p) m

theorem Succeeds.store {next : Prog α σ} (hstore : ports.resolve o = .ok (.store p value))
    (h : next.Succeeds ports Q) : (store o next).Succeeds ports Q := by
  intro m
  rw [exec_store hstore]
  exact h _

theorem Succeeds.reply {next : Reply α → Prog α σ} {r : Reply α}
    (hreply : ports.resolve o = .ok (.reply r)) (h : (next r).Succeeds ports Q) :
    (Prog.op o next).Succeeds ports Q := by
  intro m
  rw [exec_reply hreply]
  exact h m

/-- An operation that is answered, whatever the answer. -/
theorem Succeeds.op {next : Reply α → Prog α σ} {effect : Effect α}
    (hresolve : ports.resolve o = .ok effect)
    (h : ∀ m, (next (effect.apply m).1).Succeeds ports Q) : (Prog.op o next).Succeeds ports Q := by
  intro m
  obtain ⟨state, m', hexec, hQ⟩ := h m (effect.apply m).2
  exact ⟨state, m', exec_op_eq_ok.mpr ⟨effect, hresolve, hexec⟩, hQ⟩

/-- A `run` that does not panic leaves its state where one that returns does. -/
theorem Succeeds.of_returns {R : σ → Prop} {prog : Prog α σ} (h : prog.Succeeds ports Q)
    (hreturns : prog.Returns R) : prog.Succeeds ports R := by
  intro m
  obtain ⟨state, m', hexec, -⟩ := h m
  exact ⟨state, m', hexec, hreturns.exec hexec⟩

theorem Succeeds.map {τ : Type} {f : σ → τ} {R : τ → Prop} {prog : Prog α σ} :
    (prog.map f).Succeeds ports R ↔ prog.Succeeds ports fun state => R (f state) := by
  refine forall_congr' fun m => ?_
  rw [exec_map_eq]
  cases prog.exec ports m with
  | error panic => exact iff_of_false nofun nofun
  | ok r =>
    constructor
    · rintro ⟨state, m', heq, hR⟩
      cases heq
      exact ⟨_, _, rfl, hR⟩
    · rintro ⟨state, m', heq, hR⟩
      cases heq
      exact ⟨_, _, rfl, hR⟩

end Prog

/-- The number of cells a port lends in a run. -/
def PortKind.cells (frames : ℕ) : PortKind → ℕ
  | audioInput | audioOutput => frames
  | controlInput | controlOutput => 1

/-- The addresses a run can reach through its ports. -/
def Ports.reach (ports : Ports α) : Set Ptr :=
  {p | ∃ (port : ℕ) (descriptor : PortDescriptor α) (ptr : Ptr),
    ports.descriptors[port]? = some descriptor ∧
    ports.ptrs[port]? = some ptr ∧ p ∈ (Slice.mk ptr (descriptor.kind.cells ports.frames)).region}

namespace Ports

variable {ports : Ports α}

theorem mem_reach_of_access {port : ℕ} {kind : PortKind} {p q : Ptr}
    (h : ports.access port kind = .ok p)
    (hq : q ∈ (Slice.mk p (kind.cells ports.frames)).region) : q ∈ ports.reach := by
  obtain ⟨⟨descriptor, hdescriptor, rfl⟩, hptr⟩ := access_eq_ok.mp h
  exact ⟨port, descriptor, p, hdescriptor, hptr, hq⟩

theorem mem_reach_of_cell {port : ℕ} {kind : PortKind} {p : Ptr}
    (h : ports.access port kind = .ok p) (hkind : kind.cells ports.frames = 1) :
    p ∈ ports.reach :=
  mem_reach_of_access h ⟨le_rfl, by rw [hkind]; exact Nat.lt_succ_self p⟩

theorem mem_reach_of_input {port i : ℕ} {s : Slice} {p : Ptr}
    (hs : ports.audioInput port = .ok s) (hp : s.element i = .ok p) : p ∈ ports.reach := by
  obtain ⟨haccess, hlen⟩ := audioInput_eq_ok.mp hs
  refine mem_reach_of_access haccess ?_
  rw [PortKind.cells, ← hlen]
  exact s.element_mem hp

theorem mem_reach_of_output {port i : ℕ} {s : Slice} {p : Ptr}
    (hs : ports.audioOutput port = .ok s) (hp : s.element i = .ok p) : p ∈ ports.reach := by
  obtain ⟨haccess, hlen⟩ := audioOutput_eq_ok.mp hs
  refine mem_reach_of_access haccess ?_
  rw [PortKind.cells, ← hlen]
  exact s.element_mem hp

/-- Every access of an operation lies within reach. -/
theorem resolve_mem {o : Op α} {effect : Effect α} (h : ports.resolve o = .ok effect) :
    (∀ p, effect = .load p → p ∈ ports.reach) ∧
      ∀ p value, effect = .store p value → p ∈ ports.reach := by
  cases o with
  | frames =>
    cases h
    exact ⟨nofun, nofun⟩
  | audioInput port =>
    obtain ⟨s, -, heq⟩ := bind_eq_ok.mp h
    cases heq
    exact ⟨nofun, nofun⟩
  | audioOutput port =>
    obtain ⟨s, -, heq⟩ := bind_eq_ok.mp h
    cases heq
    exact ⟨nofun, nofun⟩
  | controlInput port =>
    obtain ⟨q, hq, heq⟩ := bind_eq_ok.mp h
    cases heq
    exact ⟨by rintro p ⟨⟩; exact mem_reach_of_cell hq rfl, nofun⟩
  | controlOutput port =>
    obtain ⟨q, -, heq⟩ := bind_eq_ok.mp h
    cases heq
    exact ⟨nofun, nofun⟩
  | audioInOut inPort outPort =>
    obtain ⟨s, -, heq⟩ := bind_eq_ok.mp h
    cases heq
    exact ⟨nofun, nofun⟩
  | readInput port i =>
    obtain ⟨s, hs, h⟩ := bind_eq_ok.mp h
    obtain ⟨q, hq, heq⟩ := bind_eq_ok.mp h
    cases heq
    exact ⟨by rintro p ⟨⟩; exact mem_reach_of_input hs hq, nofun⟩
  | readOutput port i =>
    obtain ⟨s, hs, h⟩ := bind_eq_ok.mp h
    obtain ⟨q, hq, heq⟩ := bind_eq_ok.mp h
    cases heq
    exact ⟨by rintro p ⟨⟩; exact mem_reach_of_output hs hq, nofun⟩
  | writeOutput port i value =>
    obtain ⟨s, hs, h⟩ := bind_eq_ok.mp h
    obtain ⟨q, hq, heq⟩ := bind_eq_ok.mp h
    cases heq
    exact ⟨nofun, by rintro p v ⟨⟩; exact mem_reach_of_output hs hq⟩
  | readControl port =>
    obtain ⟨q, hq, heq⟩ := bind_eq_ok.mp h
    cases heq
    exact ⟨by rintro p ⟨⟩; exact mem_reach_of_cell hq rfl, nofun⟩
  | writeControl port value =>
    obtain ⟨q, hq, heq⟩ := bind_eq_ok.mp h
    cases heq
    exact ⟨nofun, by rintro p v ⟨⟩; exact mem_reach_of_cell hq rfl⟩

end Ports

/-- What an effect makes of two memories that agree where it looks. -/
theorem Effect.apply_congr {effect : Effect α} {reach : Set Ptr} {m m' : Memory α}
    (hload : ∀ p, effect = .load p → p ∈ reach) (h : Set.EqOn m m' reach) :
    (effect.apply m).1 = (effect.apply m').1 ∧
      Set.EqOn (effect.apply m).2 (effect.apply m').2 reach := by
  cases effect with
  | reply r => exact ⟨rfl, h⟩
  | load p => exact ⟨congrArg Reply.data (h (hload p rfl)), h⟩
  | store p value =>
    refine ⟨rfl, fun q hq => ?_⟩
    by_cases hqp : q = p
    · subst hqp
      simp only [apply, Function.update_self]
    · simp only [apply, Function.update_of_ne hqp]
      exact h hq

/-- **Locality.** A run sees and changes the memory only through its ports. -/
theorem Prog.exec_congr {ports : Ports α} {prog : Prog α σ} {m m' m₁ : Memory α} {state : σ}
    (h : Set.EqOn m m' ports.reach) (hexec : prog.exec ports m = .ok (state, m₁)) :
    ∃ m₁', prog.exec ports m' = .ok (state, m₁') ∧ Set.EqOn m₁ m₁' ports.reach := by
  induction prog generalizing m m' with
  | done s =>
    cases hexec
    exact ⟨m', rfl, h⟩
  | fail panic => cases hexec
  | op o next ih =>
    obtain ⟨effect, hresolve, hnext⟩ := exec_op_eq_ok.mp hexec
    obtain ⟨hreply, hmem⟩ := Effect.apply_congr (Ports.resolve_mem hresolve).1 h
    rw [hreply] at hnext
    obtain ⟨m₁', hnext', heq⟩ := ih _ hmem hnext
    exact ⟨m₁', exec_op_eq_ok.mpr ⟨effect, hresolve, hnext'⟩, heq⟩

end Port
