import TympanLadspa.Entry.Plugin
import TympanLadspa.Foundations.Transition

/-!
# The shims

The C callbacks of `entry.rs` on a heap of instances and the memory of the host. A trace
of a host is a list of calls; the allocator chooses the handle of a new instance among
the free addresses, and the host may write its memory between the calls.

`Local` is what a trace says about one live instance: the calls on it, each run with the
memory it starts from.
-/

namespace Entry

open Port (Ptr Memory Ports Panic Prog)

variable {α σ : Type} {P : Plugin α σ}

/-- `raw::Handle`; zero is NULL. -/
abbrev Handle := ℕ

/-- `Instance`: the plugin and one pointer for each port, NULL until the port is bound. -/
structure Instance (P : Plugin α σ) where
  plugin : σ
  portPtrs : List Ptr
  portPtrs_length : portPtrs.length = P.ports.length

namespace Instance

/-- `Instance::new`. -/
def new (P : Plugin α σ) (plugin : σ) : Instance P :=
  { plugin := plugin
    portPtrs := List.replicate P.ports.length 0
    portPtrs_length := List.length_replicate }

/-- The body of `connect_port_shim`. -/
def connectPort (inst : Instance P) (port : ℕ) (data : Ptr) : Except Panic (Instance P) :=
  if port < inst.portPtrs.length then
    .ok
      { inst with
        portPtrs := inst.portPtrs.set port data
        portPtrs_length := by rw [List.length_set, inst.portPtrs_length] }
  else
    .error (.indexOutOfBounds inst.portPtrs.length port)

/-- The `Ports` that `run_shim` builds. -/
def ports (inst : Instance P) (frames : ℕ) : Ports α :=
  { ptrs := inst.portPtrs, descriptors := P.ports, frames := frames }

def activate (inst : Instance P) : Instance P :=
  { inst with plugin := P.activate inst.plugin }

/-- The body of `run_shim`, on the memory of the host. -/
def run (inst : Instance P) (frames : ℕ) (memory : Memory α) :
    Except Panic (Instance P × Memory α) :=
  match (P.run inst.plugin frames).exec (inst.ports frames) memory with
  | .error panic => .error panic
  | .ok (plugin, memory') => .ok ({ inst with plugin := plugin }, memory')

def deactivate (inst : Instance P) : Instance P :=
  { inst with plugin := P.deactivate inst.plugin }

end Instance

/-- Why a call does not return: the handle is not that of a live instance, or the plugin
panicked. -/
inductive Fault
  | danglingHandle
  | panicked (panic : Panic)
deriving Repr, DecidableEq

/-- A call of a method on the plugin of an instance. -/
inductive Invocation (α : Type)
  | activate
  | run (frames : ℕ) (ports : Ports α)
  | deactivate
  | drop

/-- All instances, the memory of the host, and the methods called so far behind which
handle. No shim reads the log. -/
structure World (P : Plugin α σ) where
  heap : Handle → Option (Instance P)
  memory : Memory α
  log : List (Handle × Invocation α)

namespace World

/-- No instance yet. -/
def start (P : Plugin α σ) (memory : Memory α) : World P :=
  ⟨fun _ => none, memory, []⟩

/-- The instance behind a handle. -/
def deref (w : World P) (handle : Handle) : Except Fault (Instance P) :=
  match w.heap handle with
  | none => .error .danglingHandle
  | some inst => .ok inst

def put (w : World P) (handle : Handle) (inst : Option (Instance P)) : World P :=
  { w with heap := Function.update w.heap handle inst }

def record (w : World P) (handle : Handle) (invocation : Invocation α) : World P :=
  { w with log := w.log ++ [(handle, invocation)] }

/-- `instantiate_shim`, with the address `Box::new` gets if it comes to that. -/
def instantiateShim (w : World P) (sampleRate : BitVec 64) (address : Handle) :
    Handle × World P :=
  match P.instantiate (sampleRate.setWidth 32) with
  | .ok plugin => (address, w.put address (some (.new P plugin)))
  | .error _ => (0, w)

def connectPortShim (w : World P) (handle : Handle) (port : ℕ) (data : Ptr) :
    Except Fault (World P) := do
  let inst ← w.deref handle
  match inst.connectPort port data with
  | .ok inst' => return w.put handle (some inst')
  | .error panic => .error (.panicked panic)

def activateShim (w : World P) (handle : Handle) : Except Fault (World P) := do
  let inst ← w.deref handle
  return (w.put handle (some inst.activate)).record handle .activate

def runShim (w : World P) (handle : Handle) (sampleCount : ℕ) : Except Fault (World P) := do
  let inst ← w.deref handle
  match inst.run sampleCount w.memory with
  | .ok (inst', memory) =>
    return { (w.put handle (some inst')).record handle (.run sampleCount (inst.ports sampleCount))
      with memory := memory }
  | .error panic => .error (.panicked panic)

def deactivateShim (w : World P) (handle : Handle) : Except Fault (World P) := do
  let inst ← w.deref handle
  return (w.put handle (some inst.deactivate)).record handle .deactivate

def cleanupShim (w : World P) (handle : Handle) : Except Fault (World P) := do
  let _ ← w.deref handle
  return (w.put handle none).record handle .drop

end World

/-- What a host does. `address` is the allocator's choice for the new instance. -/
inductive Call (α : Type)
  | instantiate (sampleRate : BitVec 64) (address : Handle)
  | connectPort (handle : Handle) (port : ℕ) (data : Ptr)
  | activate (handle : Handle)
  | run (handle : Handle) (sampleCount : ℕ)
  | deactivate (handle : Handle)
  | cleanup (handle : Handle)
  | write (ptr : Ptr) (value : α)

/-- One call; `none` when it faults, or when the allocator hands out an address in use. -/
def World.step (w : World P) : Call α → Option (World P)
  | .instantiate sampleRate address =>
    match w.heap address with
    | none => if address = 0 then none else some (w.instantiateShim sampleRate address).2
    | some _ => none
  | .connectPort handle port data => (w.connectPortShim handle port data).toOption
  | .activate handle => (w.activateShim handle).toOption
  | .run handle sampleCount => (w.runShim handle sampleCount).toOption
  | .deactivate handle => (w.deactivateShim handle).toOption
  | .cleanup handle => (w.cleanupShim handle).toOption
  | .write ptr value => some { w with memory := Function.update w.memory ptr value }

-- ════════════════════════════════════════════════════════════════════════
-- One handle
-- ════════════════════════════════════════════════════════════════════════

/-- A call on a live instance; a run has the memory it starts from. -/
inductive Local (α : Type)
  | connectPort (port : ℕ) (data : Ptr)
  | activate
  | run (frames : ℕ) (memory : Memory α)
  | deactivate

def Instance.step (inst : Instance P) : Local α → Option (Instance P)
  | .connectPort port data => (inst.connectPort port data).toOption
  | .activate => some inst.activate
  | .run frames memory => (inst.run frames memory).toOption.map Prod.fst
  | .deactivate => some inst.deactivate

/-- What happens at one address: an instance is made there, called, destroyed. -/
inductive Event (α : Type)
  | born (sampleRate : BitVec 64)
  | call (c : Local α)
  | cleanup

/-- One event at an address on its own, for any notion of what can be there. -/
def cellStep {τ : Type} (create : BitVec 64 → Option τ) (step : τ → Local α → Option τ) :
    Option τ → Event α → Option (Option τ)
  | none, .born sampleRate => (create sampleRate).map some
  | some t, .call c => (step t c).map some
  | some _, .cleanup => some none
  | _, _ => none

/-- A new instance, when the plugin makes one. -/
def Instance.create (P : Plugin α σ) (sampleRate : BitVec 64) : Option (Instance P) :=
  (P.instantiate (sampleRate.setWidth 32)).toOption.map (.new P)

/-- The event a call is at an address, if it is one. -/
def eventAt (handle : Handle) (w : World P) : Call α → List (Event α)
  | .instantiate sampleRate address =>
    if address = handle then
      match P.instantiate (sampleRate.setWidth 32) with
      | .ok _ => [.born sampleRate]
      | .error _ => []
    else []
  | .connectPort h port data => if h = handle then [.call (.connectPort port data)] else []
  | .activate h => if h = handle then [.call .activate] else []
  | .run h sampleCount => if h = handle then [.call (.run sampleCount w.memory)] else []
  | .deactivate h => if h = handle then [.call .deactivate] else []
  | .cleanup h => if h = handle then [.cleanup] else []
  | .write _ _ => []

end Entry
