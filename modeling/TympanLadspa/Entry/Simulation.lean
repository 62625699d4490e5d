import TympanLadspa.Entry.Isolation
import TympanLadspa.Port.Related

/-!
# Plugins in each other's place

Two plugins with the same ports whose methods keep a relation between their states, and whose
runs make the same operations. No host can tell them apart: the same calls return, and it finds
the same in its memory.
-/

namespace Entry

open Port (Memory Prog)

variable {α σ τ : Type} {P : Plugin α σ} {P' : Plugin α τ} {R : σ → τ → Prop}

/-- The methods of two plugins keep a relation between their states. -/
structure Plugin.Bisimilar (P : Plugin α σ) (P' : Plugin α τ) (R : σ → τ → Prop) : Prop where
  ports : P'.ports = P.ports
  instantiate : ∀ rate,
    (∃ e e', P.instantiate rate = .error e ∧ P'.instantiate rate = .error e') ∨
      ∃ state state', P.instantiate rate = .ok state ∧ P'.instantiate rate = .ok state' ∧
        R state state'
  activate : ∀ {state state'}, R state state' → R (P.activate state) (P'.activate state')
  deactivate : ∀ {state state'}, R state state' → R (P.deactivate state) (P'.deactivate state')
  run : ∀ {state state'}, R state state' → ∀ frames,
    (P.run state frames).Related R (P'.run state' frames)

/-- Instances with the same bindings and related plugins. -/
structure Instance.Like (R : σ → τ → Prop) (inst : Instance P) (inst' : Instance P') : Prop where
  plugin : R inst.plugin inst'.plugin
  portPtrs : inst'.portPtrs = inst.portPtrs

/-- Worlds in which a host finds the same: the memory, the calls so far, and instances behind
the same handles. -/
structure World.Like (R : σ → τ → Prop) (w : World P) (w' : World P') : Prop where
  heap : ∀ handle, Option.Rel (Instance.Like R) (w.heap handle) (w'.heap handle)
  memory : w'.memory = w.memory
  log : w'.log = w.log

namespace Instance

variable {inst : Instance P} {inst' : Instance P'}

/-- A binding fails for both, or is made for both. -/
theorem Like.connectPort (h : inst.Like R inst') (port : ℕ) (data : Port.Ptr) :
    (∃ panic, inst.connectPort port data = .error panic ∧
        inst'.connectPort port data = .error panic) ∨
      ∃ i i', inst.connectPort port data = .ok i ∧ inst'.connectPort port data = .ok i' ∧
        i.Like R i' := by
  have hlength : inst'.portPtrs.length = inst.portPtrs.length := congrArg List.length h.portPtrs
  unfold Instance.connectPort
  by_cases hport : port < inst.portPtrs.length
  · rw [if_pos hport, if_pos (hlength.symm ▸ hport)]
    exact .inr ⟨_, _, rfl, rfl, h.plugin, congrArg (List.set · port data) h.portPtrs⟩
  · rw [if_neg hport, if_neg (hlength.symm ▸ hport), hlength]
    exact .inl ⟨_, rfl, rfl⟩

theorem Like.ports (hP : P.Bisimilar P' R) (h : inst.Like R inst') (frames : ℕ) :
    inst'.ports frames = inst.ports frames := by
  unfold Instance.ports
  rw [h.portPtrs, hP.ports]

/-- A run panics for both, or leaves the same memory. -/
theorem Like.run (hP : P.Bisimilar P' R) (h : inst.Like R inst') (frames : ℕ) (m : Memory α) :
    (∃ panic, inst.run frames m = .error panic ∧ inst'.run frames m = .error panic) ∨
      ∃ i i' m', inst.run frames m = .ok (i, m') ∧ inst'.run frames m = .ok (i', m') ∧
        i.Like R i' := by
  unfold Instance.run
  rw [h.ports hP frames]
  rcases (hP.run h.plugin frames).exec (inst.ports frames) m with
    ⟨panic, hexec, hexec'⟩ | ⟨state, state', m', hexec, hexec', hR⟩
  · simp only [hexec, hexec']
    exact .inl ⟨panic, rfl, rfl⟩
  · simp only [hexec, hexec']
    exact .inr ⟨_, _, m', rfl, rfl, hR, h.portPtrs⟩

end Instance

namespace World

variable {w : World P} {w' : World P'}

theorem start_like (memory : Memory α) : (start P memory).Like R (start P' memory) where
  heap _ := .none
  memory := rfl
  log := rfl

/-- Behind a handle there is an instance in both worlds or in none. -/
theorem Like.cell (h : w.Like R w') (handle : Handle) :
    (w.heap handle = none ∧ w'.heap handle = none) ∨
      ∃ inst inst', w.heap handle = some inst ∧ w'.heap handle = some inst' ∧
        inst.Like R inst' := by
  have hrel := h.heap handle
  generalize w.heap handle = cell at hrel
  generalize w'.heap handle = cell' at hrel
  cases hrel with
  | some hinst => exact .inr ⟨_, _, rfl, rfl, hinst⟩
  | none => exact .inl ⟨rfl, rfl⟩

/-- A shim begins with the instance behind its handle. -/
theorem Like.deref (h : w.Like R w') (handle : Handle) {shim : Instance P → Except Fault (World P)}
    {shim' : Instance P' → Except Fault (World P')}
    (hshim : ∀ inst inst', inst.Like R inst' →
      Option.Rel (World.Like R) (shim inst).toOption (shim' inst').toOption) :
    Option.Rel (World.Like R) (w.deref handle >>= shim).toOption
      (w'.deref handle >>= shim').toOption := by
  unfold World.deref
  rcases h.cell handle with ⟨hdead, hdead'⟩ | ⟨inst, inst', hlive, hlive', hinst⟩
  · rw [hdead, hdead']
    exact .none
  · rw [hlive, hlive']
    exact hshim inst inst' hinst

theorem Like.put (h : w.Like R w') (handle : Handle) {inst : Option (Instance P)}
    {inst' : Option (Instance P')} (hinst : Option.Rel (Instance.Like R) inst inst') :
    (w.put handle inst).Like R (w'.put handle inst') where
  heap := by
    intro k
    rw [put_heap, put_heap]
    by_cases hk : k = handle
    · rw [if_pos hk, if_pos hk]
      exact hinst
    · rw [if_neg hk, if_neg hk]
      exact h.heap k
  memory := h.memory
  log := h.log

theorem Like.record (h : w.Like R w') (handle : Handle) (invocation : Invocation α) :
    (w.record handle invocation).Like R (w'.record handle invocation) where
  heap := h.heap
  memory := h.memory
  log := congrArg (· ++ [(handle, invocation)]) h.log

/-- **Step lemma**: a call returns in both worlds or in none, and leaves them alike. -/
theorem Like.step (hP : P.Bisimilar P' R) (h : w.Like R w') (c : Call α) :
    Option.Rel (World.Like R) (w.step c) (w'.step c) := by
  cases c with
  | instantiate sampleRate address =>
    rcases h.cell address with ⟨hfree, hfree'⟩ | ⟨inst, inst', hlive, hlive', -⟩
    · simp only [World.step, hfree, hfree', instantiateShim]
      by_cases hnull : address = 0
      · rw [if_pos hnull, if_pos hnull]
        exact .none
      · rw [if_neg hnull, if_neg hnull]
        rcases hP.instantiate (sampleRate.setWidth 32) with
          ⟨e, e', he, he'⟩ | ⟨state, state', hok, hok', hR⟩
        · rw [he, he']
          exact .some h
        · rw [hok, hok']
          have hptrs : (Instance.new P' state').portPtrs = (Instance.new P state).portPtrs :=
            congrArg (fun ports => List.replicate (List.length ports) 0) hP.ports
          exact .some (h.put address (.some ⟨hR, hptrs⟩))
    · simp only [World.step, hlive, hlive']
      exact .none
  | connectPort handle port data =>
    refine h.deref handle fun inst inst' hinst => ?_
    rcases hinst.connectPort port data with ⟨panic, hfail, hfail'⟩ | ⟨i, i', hok, hok', hi⟩
    · rw [hfail, hfail']
      exact .none
    · rw [hok, hok']
      exact .some (h.put handle (.some hi))
  | activate handle =>
    refine h.deref handle fun inst inst' hinst => ?_
    have hlike : inst.activate.Like R inst'.activate :=
      ⟨hP.activate hinst.plugin, hinst.portPtrs⟩
    exact .some ((h.put handle (.some hlike)).record _ _)
  | run handle sampleCount =>
    refine h.deref handle fun inst inst' hinst => ?_
    rw [h.memory, hinst.ports hP sampleCount]
    rcases hinst.run hP sampleCount w.memory with
      ⟨panic, hfail, hfail'⟩ | ⟨i, i', memory, hok, hok', hi⟩
    · rw [hfail, hfail']
      exact .none
    · rw [hok, hok']
      have hlike := (h.put handle (.some hi)).record handle
        (.run sampleCount (inst.ports sampleCount))
      exact .some ⟨hlike.heap, rfl, hlike.log⟩
  | deactivate handle =>
    refine h.deref handle fun inst inst' hinst => ?_
    have hlike : inst.deactivate.Like R inst'.deactivate :=
      ⟨hP.deactivate hinst.plugin, hinst.portPtrs⟩
    exact .some ((h.put handle (.some hlike)).record _ _)
  | cleanup handle =>
    exact h.deref handle fun inst inst' hinst => .some ((h.put handle .none).record _ _)
  | write ptr value =>
    exact .some ⟨h.heap, congrArg (Function.update · ptr value) h.memory, h.log⟩

/-- **In each other's place**: whatever a host does, the plugins make the same of it. -/
theorem Like.run (hP : P.Bisimilar P' R) (h : w.Like R w') (cs : List (Call α)) :
    Option.Rel (World.Like R) (Transition.run World.step w cs)
      (Transition.run World.step w' cs) :=
  Transition.run_bisimulation (fun _ _ c hlike => hlike.step hP c) h cs

end World

end Entry
