import TympanLadspa.Entry.Isolation
import TympanLadspa.Port.Lending

/-!
# The contract of the shims

What the shims ask of a host in their sections on safety: handles of live instances, ports of
the table, all of them bound before a run. With a plugin whose methods keep an invariant, and
whose runs do not panic on the ports of an instance while it holds, a host that keeps to the
contract is never stopped.
-/

namespace Entry

open Port (Memory Ports Prog)

variable {α σ : Type} {P : Plugin α σ}

/-- What a host may do next; the address is the promise of the allocator. -/
def World.May (w : World P) : Call α → Prop
  | .instantiate _ address => w.heap address = none ∧ address ≠ 0
  | .connectPort handle port data =>
    (∃ inst, w.heap handle = some inst) ∧ port < P.ports.length ∧ data ≠ 0
  | .run handle _ => ∃ inst, w.heap handle = some inst ∧ 0 ∉ inst.portPtrs
  | .activate handle | .deactivate handle | .cleanup handle => ∃ inst, w.heap handle = some inst
  | .write _ _ => True

/-- A plugin with an invariant of its state under which no run panics. -/
structure Plugin.Sturdy (P : Plugin α σ) (I : σ → Prop) : Prop where
  instantiate : ∀ rate plugin, P.instantiate rate = .ok plugin → I plugin
  activate : ∀ plugin, I plugin → I (P.activate plugin)
  run : ∀ (inst : Instance P) (frames : ℕ), I inst.plugin →
    (P.run inst.plugin frames).Succeeds (inst.ports frames) I
  deactivate : ∀ plugin, I plugin → I (P.deactivate plugin)

/-- The invariant holds of the plugin of every live instance. -/
def World.All (w : World P) (I : σ → Prop) : Prop :=
  ∀ handle inst, w.heap handle = some inst → I inst.plugin

namespace World

variable {I : σ → Prop} {w : World P}

theorem all_start (memory : Memory α) : (start P memory).All I := nofun

theorem All.put {inst : Instance P} (h : w.All I) (handle : Handle) (hinst : I inst.plugin) :
    (w.put handle (some inst)).All I := by
  intro k other hother
  rw [put_heap] at hother
  by_cases hk : k = handle
  · rw [if_pos hk] at hother
    cases hother
    exact hinst
  · rw [if_neg hk] at hother
    exact h k other hother

theorem All.remove (h : w.All I) (handle : Handle) : (w.put handle none).All I := by
  intro k other hother
  rw [put_heap] at hother
  by_cases hk : k = handle
  · rw [if_pos hk] at hother
    cases hother
  · rw [if_neg hk] at hother
    exact h k other hother

private theorem step_of_ok {w' : World P} {x : Except Fault (World P)} (h : x = .ok w') :
    x.toOption = some w' := by
  rw [h]
  rfl

/-- **Step lemma**: a call that the contract allows returns, with the invariant kept. -/
theorem All.progress (hP : P.Sturdy I) (h : w.All I) {c : Call α} (hmay : w.May c) :
    ∃ w', w.step c = some w' ∧ w'.All I := by
  cases c with
  | instantiate sampleRate address =>
    obtain ⟨hfree, hnull⟩ := hmay
    simp only [step, hfree, if_neg hnull, instantiateShim]
    split
    · next plugin hok => exact ⟨_, rfl, h.put address (hP.instantiate _ _ hok)⟩
    · exact ⟨w, rfl, h⟩
  | connectPort handle port data =>
    obtain ⟨⟨inst, hlive⟩, hport, -⟩ := hmay
    obtain ⟨inst', hok⟩ : ∃ inst', inst.connectPort port data = .ok inst' :=
      ⟨_, if_pos (inst.portPtrs_length ▸ hport)⟩
    refine ⟨w.put handle (some inst'), step_of_ok ?_, h.put handle ?_⟩
    · refine Port.bind_eq_ok.mpr ⟨inst, deref_eq_ok.mpr hlive, ?_⟩
      rw [hok]
      rfl
    · rw [(Instance.connectPort_eq_ok hok).2.1]
      exact h handle inst hlive
  | activate handle =>
    obtain ⟨inst, hlive⟩ := hmay
    refine ⟨_, step_of_ok (Port.bind_eq_ok.mpr ⟨inst, deref_eq_ok.mpr hlive, rfl⟩), ?_⟩
    exact h.put handle (hP.activate _ (h handle inst hlive))
  | run handle sampleCount =>
    obtain ⟨inst, hlive, -⟩ := hmay
    obtain ⟨plugin, memory, hexec, hI⟩ :=
      hP.run inst sampleCount (h handle inst hlive) w.memory
    obtain ⟨inst', hrun, hinst'⟩ :
        ∃ inst', inst.run sampleCount w.memory = .ok (inst', memory) ∧ I inst'.plugin := by
      refine ⟨{ inst with plugin := plugin }, ?_, hI⟩
      rw [Instance.run, hexec]
    refine ⟨{ (w.put handle (some inst')).record handle (.run sampleCount (inst.ports sampleCount))
      with memory := memory }, step_of_ok ?_, h.put handle hinst'⟩
    refine Port.bind_eq_ok.mpr ⟨inst, deref_eq_ok.mpr hlive, ?_⟩
    simp only [hrun]
    rfl
  | deactivate handle =>
    obtain ⟨inst, hlive⟩ := hmay
    refine ⟨_, step_of_ok (Port.bind_eq_ok.mpr ⟨inst, deref_eq_ok.mpr hlive, rfl⟩), ?_⟩
    exact h.put handle (hP.deactivate _ (h handle inst hlive))
  | cleanup handle =>
    obtain ⟨inst, hlive⟩ := hmay
    refine ⟨_, step_of_ok (Port.bind_eq_ok.mpr ⟨inst, deref_eq_ok.mpr hlive, rfl⟩), ?_⟩
    exact h.remove handle
  | write ptr value => exact ⟨_, rfl, h⟩

/-- **A host that keeps to the contract** is never stopped, whatever else is in the memory it
hands out. -/
theorem obeyed (hP : P.Sturdy I) {memory : Memory α} {as : List (Call α)}
    (h : Transition.Obeys step May (start P memory) as) :
    ∃ w, Transition.run step (start P memory) as = some w ∧ w.All I :=
  h.progress (all_start memory) fun _ _ hall hmay => hall.progress hP hmay

end World

namespace Instance

variable (inst : Instance P) (frames : ℕ)

/-- A control input of the table can be read. -/
theorem exists_controlInput (port : ℕ)
    (h : (P.ports[port]?).map (·.kind) = some .controlInput) :
    ∃ ptr, (inst.ports frames).controlInput port = .ok ptr :=
  Port.Ports.HasKind.access inst.portPtrs_length (Option.map_eq_some_iff.mp h)

/-- An audio input and an audio output of the table are lent together, with all frames. -/
theorem exists_audioInOut (inPort outPort : ℕ)
    (hin : (P.ports[inPort]?).map (·.kind) = some .audioInput)
    (hout : (P.ports[outPort]?).map (·.kind) = some .audioOutput) :
    ∃ input output, (inst.ports frames).audioInOut inPort outPort = .ok (input, output) ∧
      (inst.ports frames).audioInput inPort = .ok input ∧
      (inst.ports frames).audioOutput outPort = .ok output := by
  have hslices : ∃ slices, (inst.ports frames).audioInOut inPort outPort = .ok slices :=
    (Port.Ports.audioInOut_iff inst.portPtrs_length).mpr
      ⟨Option.map_eq_some_iff.mp hin, Option.map_eq_some_iff.mp hout⟩
  obtain ⟨⟨input, output⟩, h⟩ := hslices
  exact ⟨input, output, h, Port.Ports.audioInOut_eq_ok.mp h⟩

end Instance

end Entry
