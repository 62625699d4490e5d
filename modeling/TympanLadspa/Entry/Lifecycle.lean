import TympanLadspa.Entry.Isolation

/-!
# Bindings and lifecycle of one handle

The abstract machine behind a handle is the state of the plugin and a partial map from
port indices to pointers. The shims refine it: their pointer table is the table of the
map, and the methods they call are the ones the machine calls, in the same order and with
the same ports.
-/

namespace Entry

open Port (Ptr Memory Ports Panic Prog Slice PortKind)

variable {α σ : Type} {P : Plugin α σ}

/-- The abstract machine. -/
structure Machine (P : Plugin α σ) where
  plugin : σ
  bindings : ℕ → Option Ptr

namespace Machine

/-- A new plugin with nothing bound. -/
def start (P : Plugin α σ) (plugin : σ) : Machine P := ⟨plugin, fun _ => none⟩

/-- The pointer table of the bindings: NULL for a port that is not bound. -/
def table (m : Machine P) : List Ptr :=
  (List.range P.ports.length).map fun port => (m.bindings port).getD 0

/-- The bindings as a run of `frames` samples sees them. -/
def ports (m : Machine P) (frames : ℕ) : Ports α :=
  { ptrs := m.table, descriptors := P.ports, frames := frames }

def step (m : Machine P) : Local α → Option (Machine P)
  | .connectPort port data =>
    if port < P.ports.length then
      some { m with bindings := Function.update m.bindings port (some data) }
    else none
  | .activate => some { m with plugin := P.activate m.plugin }
  | .run frames memory =>
    ((P.run m.plugin frames).exec (m.ports frames) memory).toOption.map fun r =>
      { m with plugin := r.1 }
  | .deactivate => some { m with plugin := P.deactivate m.plugin }

/-- A new machine, when the plugin makes one. -/
def create (P : Plugin α σ) (sampleRate : BitVec 64) : Option (Machine P) :=
  (P.instantiate (sampleRate.setWidth 32)).toOption.map (.start P)

/-- The methods called in a step. -/
def invokes (m : Machine P) : Local α → List (Invocation α)
  | .connectPort _ _ => []
  | .activate => [.activate]
  | .run frames _ => [.run frames (m.ports frames)]
  | .deactivate => [.deactivate]

end Machine

/-- The methods called at an event. -/
def Machine.invokesAt : Option (Machine P) → Event α → List (Invocation α)
  | some m, .call c => m.invokes c
  | some _, .cleanup => [.drop]
  | _, _ => []

/-- One address on its own: the machine there, and the methods called there so far. -/
structure Life (P : Plugin α σ) where
  machine : Option (Machine P)
  invoked : List (Invocation α)

namespace Life

def start (P : Plugin α σ) : Life P := ⟨none, []⟩

def step (life : Life P) (e : Event α) : Option (Life P) :=
  (cellStep (Machine.create P) Machine.step life.machine e).map fun machine =>
    ⟨machine, life.invoked ++ Machine.invokesAt life.machine e⟩

end Life

/-- The pointer a port was last connected to. -/
def lastConnect (port : ℕ) (calls : List (Local α)) : Option Ptr :=
  (calls.filterMap fun
    | .connectPort p data => if p = port then some data else none
    | _ => none).getLast?

/-- An instance stands for a state of the abstract machine. -/
structure Refines (inst : Instance P) (m : Machine P) : Prop where
  plugin : inst.plugin = m.plugin
  table : inst.portPtrs = m.table

namespace Refines

variable {inst inst' : Instance P} {m : Machine P}

theorem start (P : Plugin α σ) (plugin : σ) : Refines (.new P plugin) (.start P plugin) where
  plugin := rfl
  table := by simp [Instance.new, Machine.table, Machine.start]

theorem ports_eq (h : Refines inst m) (frames : ℕ) : inst.ports frames = m.ports frames := by
  rw [Instance.ports, Machine.ports, h.table]

/-- **Step lemma**: a call on the instance is a call on the machine. -/
theorem step (h : Refines inst m) {c : Local α} (hstep : inst.step c = some inst') :
    ∃ m', m.step c = some m' ∧ Refines inst' m' := by
  cases c with
  | connectPort port data =>
    obtain ⟨hport, hplugin, hptrs⟩ := Instance.step_connectPort hstep
    refine ⟨_, if_pos hport, hplugin.trans h.plugin, ?_⟩
    rw [hptrs, h.table]
    refine List.ext_getElem (by simp [Machine.table]) fun i hi hi' => ?_
    rw [List.getElem_set]
    simp only [Machine.table, List.getElem_map, List.getElem_range, Function.update_apply,
      eq_comm]
    split <;> rfl
  | activate =>
    cases hstep
    exact ⟨_, rfl, congrArg P.activate h.plugin, h.table⟩
  | run frames memory =>
    obtain ⟨plugin, memory', hexec, rfl⟩ := Instance.step_run.mp hstep
    rw [h.plugin, h.ports_eq] at hexec
    refine ⟨{ m with plugin := plugin }, ?_, rfl, h.table⟩
    rw [Machine.step, hexec]
    rfl
  | deactivate =>
    cases hstep
    exact ⟨_, rfl, congrArg P.deactivate h.plugin, h.table⟩

/-- An event at an address is the same event on the machine there. -/
theorem cell {cell cell' : Option (Instance P)} {m : Option (Machine P)} {e : Event α}
    (h : Option.Rel Refines cell m)
    (hstep : cellStep (Instance.create P) Instance.step cell e = some cell') :
    ∃ m', cellStep (Machine.create P) Machine.step m e = some m' ∧ Option.Rel Refines cell' m' := by
  cases h with
  | none =>
    cases e with
    | born sampleRate =>
      obtain ⟨inst, hcreate, rfl⟩ := Option.map_eq_some_iff.mp hstep
      obtain ⟨plugin, hok, rfl⟩ := Instance.create_eq_some.mp hcreate
      exact ⟨_, by simp [cellStep, Machine.create, hok, Except.toOption], .some (.start P plugin)⟩
    | call c => cases hstep
    | cleanup => cases hstep
  | some h =>
    cases e with
    | born sampleRate => cases hstep
    | call c =>
      obtain ⟨inst', hcall, rfl⟩ := Option.map_eq_some_iff.mp hstep
      obtain ⟨m', hm', h'⟩ := h.step hcall
      exact ⟨_, Option.map_eq_some_iff.mpr ⟨m', hm', rfl⟩, .some h'⟩
    | cleanup =>
      cases hstep
      exact ⟨none, rfl, .none⟩

end Refines

/-- The methods called behind one handle. -/
def World.logAt (w : World P) (handle : Handle) : List (Invocation α) :=
  (w.log.filter (·.1 = handle)).map (·.2)

/-- What is at a handle stands for the machine of a life, and the calls are the same. -/
structure Stands (handle : Handle) (w : World P) (life : Life P) : Prop where
  machine : Option.Rel Refines (w.heap handle) life.machine
  invoked : w.logAt handle = life.invoked

namespace Stands

variable {handle k : Handle} {w w' : World P} {life : Life P}

/-- An event at one handle that calls the given methods. -/
private theorem put {cell inst : Option (Instance P)} {e : Event α}
    (invoked : List (Invocation α)) (h : Stands handle w life) (hcell : w.heap k = cell)
    (hstep : cellStep (Instance.create P) Instance.step cell e = some inst)
    (hinvokes : ∀ m, Option.Rel Refines cell m → Machine.invokesAt m e = invoked)
    (hheap : w'.heap = (w.put k inst).heap)
    (hlog : w'.log = w.log ++ invoked.map (Prod.mk k)) :
    ∃ life', Transition.run Life.step life (if k = handle then [e] else []) = some life' ∧
      Stands handle w' life' := by
  subst hcell
  by_cases hk : k = handle
  · subst hk
    rw [if_pos rfl]
    obtain ⟨m', hm', hrel⟩ := Refines.cell h.machine hstep
    refine ⟨⟨m', life.invoked ++ invoked⟩, ?_, ?_, ?_⟩
    · simp [Transition.run_cons, Life.step, hm', hinvokes _ h.machine]
    · rw [hheap, World.put_heap, if_pos rfl]
      exact hrel
    · simp [World.logAt, hlog, ← h.invoked, List.filter_map, Function.comp_def]
  · rw [if_neg hk]
    refine ⟨life, rfl, ?_, ?_⟩
    · rw [hheap, World.put_heap, if_neg (Ne.symm hk)]
      exact h.machine
    · simp [World.logAt, hlog, ← h.invoked, List.filter_map, Function.comp_def, hk]

/-- **Step lemma**: a call is, at each handle, an event of the life there. -/
theorem step {c : Call α} (h : Stands handle w life) (hstep : w.step c = some w') :
    ∃ life', Transition.run Life.step life (eventAt handle w c) = some life' ∧
      Stands handle w' life' := by
  cases World.step_cases hstep with
  | @instantiate sampleRate address plugin hfree hnull hok =>
    simp only [eventAt, hok]
    refine h.put [] hfree ?_ ?_ rfl (List.append_nil _).symm
    · simp [cellStep, Instance.create, hok, Except.toOption]
    · rintro m ⟨⟩
      rfl
  | refused herr => exact ⟨life, by simp [eventAt, herr], h⟩
  | connectPort hlive hok =>
    refine h.put [] hlive ?_ ?_ rfl (List.append_nil _).symm
    · simp [cellStep, Instance.step, hok, Except.toOption]
    · rintro m ⟨⟩
      rfl
  | activate hlive =>
    refine h.put [.activate] hlive rfl ?_ rfl rfl
    rintro m ⟨⟩
    rfl
  | @run _ sampleCount inst _ _ hlive hok =>
    refine h.put [.run sampleCount (inst.ports sampleCount)] hlive ?_ ?_ rfl rfl
    · simp [cellStep, Instance.step, hok, Except.toOption]
    · rintro m ⟨href⟩
      rw [href.ports_eq]
      rfl
  | deactivate hlive =>
    refine h.put [.deactivate] hlive rfl ?_ rfl rfl
    rintro m ⟨⟩
    rfl
  | cleanup hlive =>
    refine h.put [.drop] hlive rfl ?_ rfl rfl
    rintro m ⟨⟩
    rfl
  | write => exact ⟨life, rfl, h.machine, h.invoked⟩

theorem isSome_eq (h : Stands handle w life) :
    (w.heap handle).isSome = life.machine.isSome := by
  have hmachine := h.machine
  generalize w.heap handle = cell, life.machine = machine at hmachine
  cases hmachine <;> rfl

end Stands

/-- A call changes the last connection of a port when it connects the port. -/
theorem lastConnect_concat (port : ℕ) (calls : List (Local α)) (c : Local α) :
    lastConnect port (calls ++ [c]) =
      match c with
      | .connectPort p data => if p = port then some data else lastConnect port calls
      | _ => lastConnect port calls := by
  unfold lastConnect
  rw [List.filterMap_append]
  cases c with
  | connectPort p data =>
    by_cases hp : p = port
    · simp [hp]
    · simp [hp]
  | activate => simp
  | run frames memory => simp
  | deactivate => simp

namespace Machine

/-- The bindings are the last connections. -/
theorem bindings_of_run {plugin : σ} {calls : List (Local α)} {m : Machine P}
    (h : Transition.run step (.start P plugin) calls = some m) (port : ℕ) :
    m.bindings port = lastConnect port calls := by
  induction calls using List.reverseRecOn generalizing m with
  | nil =>
    cases h
    rfl
  | append_singleton calls c ih =>
    obtain ⟨m₀, hm₀, hstep⟩ := Transition.run_concat_eq_some.mp h
    rw [lastConnect_concat, ← ih hm₀]
    cases c with
    | connectPort p data =>
      simp only [step] at hstep
      split at hstep
      · cases hstep
        simp only [Function.update_apply, eq_comm]
      · cases hstep
    | activate =>
      cases hstep
      rfl
    | run frames memory =>
      obtain ⟨r, -, heq⟩ := Option.map_eq_some_iff.mp hstep
      cases heq
      rfl
    | deactivate =>
      cases hstep
      rfl

theorem table_getElem? (m : Machine P) (port : ℕ) :
    m.table[port]? =
      if port < P.ports.length then some ((m.bindings port).getD 0) else none := by
  rw [table, List.getElem?_map]
  split
  · next h => rw [List.getElem?_range h, Option.map_some]
  · next h => rw [List.getElem?_eq_none (by simpa using h), Option.map_none]

/-- A new machine comes from a plugin that was made. -/
theorem create_eq_some {sampleRate : BitVec 64} {m : Machine P} :
    create P sampleRate = some m ↔
      ∃ plugin, P.instantiate (sampleRate.setWidth 32) = .ok plugin ∧ .start P plugin = m := by
  rw [create, Option.map_eq_some_iff]
  cases P.instantiate (sampleRate.setWidth 32) <;> simp [Except.toOption]

end Machine

/-- Every accessor serves a port of its kind with the pointer bound to it. -/
structure Serves (ports : Ports α) (bindings : ℕ → Option Ptr) : Prop where
  audioInput : ∀ i d, ports.descriptors[i]? = some d → d.kind = .audioInput →
    ∃ p, bindings i = some p ∧ ports.audioInput i = .ok ⟨p, ports.frames⟩
  audioOutput : ∀ i d, ports.descriptors[i]? = some d → d.kind = .audioOutput →
    ∃ p, bindings i = some p ∧ ports.audioOutput i = .ok ⟨p, ports.frames⟩
  controlInput : ∀ i d, ports.descriptors[i]? = some d → d.kind = .controlInput →
    ∃ p, bindings i = some p ∧ ports.controlInput i = .ok p
  controlOutput : ∀ i d, ports.descriptors[i]? = some d → d.kind = .controlOutput →
    ∃ p, bindings i = some p ∧ ports.controlOutput i = .ok p
  audioInOut : ∀ i o d e, ports.descriptors[i]? = some d → d.kind = .audioInput →
    ports.descriptors[o]? = some e → e.kind = .audioOutput →
    ∃ p q, bindings i = some p ∧ bindings o = some q ∧
      ports.audioInOut i o = .ok (⟨p, ports.frames⟩, ⟨q, ports.frames⟩)

/-- A machine with every port connected serves its ports. -/
theorem Machine.serves {m : Machine P}
    (hall : ∀ port < P.ports.length, (m.bindings port).isSome) (frames : ℕ) :
    Serves (m.ports frames) m.bindings := by
  have haccess : ∀ i d kind, P.ports[i]? = some d → d.kind = kind →
      ∃ p, m.bindings i = some p ∧ (m.ports frames).access i kind = .ok p := by
    rintro i d kind hd hkind
    have hi : i < P.ports.length := (List.getElem?_eq_some_iff.mp hd).1
    obtain ⟨p, hp⟩ := Option.isSome_iff_exists.mp (hall i hi)
    refine ⟨p, hp, Port.Ports.access_eq_ok.mpr ⟨⟨d, hd, hkind⟩, ?_⟩⟩
    exact (m.table_getElem? i).trans (by rw [if_pos hi, hp, Option.getD_some])
  have hinput : ∀ i d, P.ports[i]? = some d → d.kind = .audioInput →
      ∃ p, m.bindings i = some p ∧ (m.ports frames).audioInput i = .ok ⟨p, frames⟩ := by
    intro i d hd hkind
    obtain ⟨p, hp, h⟩ := haccess i d _ hd hkind
    exact ⟨p, hp, Port.Ports.audioInput_eq_ok.mpr ⟨h, rfl⟩⟩
  have houtput : ∀ i d, P.ports[i]? = some d → d.kind = .audioOutput →
      ∃ p, m.bindings i = some p ∧ (m.ports frames).audioOutput i = .ok ⟨p, frames⟩ := by
    intro i d hd hkind
    obtain ⟨p, hp, h⟩ := haccess i d _ hd hkind
    exact ⟨p, hp, Port.Ports.audioOutput_eq_ok.mpr ⟨h, rfl⟩⟩
  refine ⟨hinput, houtput, fun i d => haccess i d _, fun i d => haccess i d _, ?_⟩
  intro i o d e hd hdkind he hekind
  obtain ⟨p, hp, hin⟩ := hinput i d hd hdkind
  obtain ⟨q, hq, hout⟩ := houtput o e he hekind
  exact ⟨p, q, hp, hq, Port.Ports.audioInOut_eq_ok.mpr ⟨hin, hout⟩⟩

def Event.isBorn : Event α → Bool
  | .born _ => true
  | _ => false

def Invocation.isDrop : Invocation α → Bool
  | .drop => true
  | _ => false

/-- A life is a run of the machine at the address. -/
theorem Life.machine_run {events : List (Event α)} {life : Life P}
    (h : Transition.run step (.start P) events = some life) :
    Transition.run (cellStep (Machine.create P) Machine.step) none events =
      some life.machine := by
  have hstep : ∀ (life : Life P) (e : Event α) (life' : Life P), life.step e = some life' →
      Transition.run (cellStep (Machine.create P) Machine.step) life.machine [e] =
        some life'.machine := by
    intro life e life' hstep
    obtain ⟨machine', hcell, rfl⟩ := Option.map_eq_some_iff.mp hstep
    rw [Transition.run_cons, hcell]
    rfl
  have hproject := Transition.run_project hstep h
  rwa [Transition.along_self h] at hproject

/-- Every plugin that was made is there or has been dropped, once. -/
theorem Life.drops {events : List (Event α)} {life : Life P}
    (h : Transition.run step (.start P) events = some life) :
    events.countP Event.isBorn =
      life.invoked.countP Invocation.isDrop + if life.machine.isSome then 1 else 0 := by
  induction events using List.reverseRecOn generalizing life with
  | nil =>
    cases h
    rfl
  | append_singleton es e ih =>
    obtain ⟨⟨machine, invoked⟩, hlife, hstep⟩ := Transition.run_concat_eq_some.mp h
    obtain ⟨machine', hcell, rfl⟩ := Option.map_eq_some_iff.mp hstep
    rw [List.countP_append, List.countP_append, ih hlife]
    match machine, e, hcell with
    | none, .born sampleRate, hcell =>
      obtain ⟨m, -, rfl⟩ := Option.map_eq_some_iff.mp hcell
      simp [Machine.invokesAt, Event.isBorn]
    | some m, .call c, hcell =>
      obtain ⟨m', -, rfl⟩ := Option.map_eq_some_iff.mp hcell
      cases c <;> simp [Machine.invokesAt, Machine.invokes, Event.isBorn, Invocation.isDrop]
    | some m, .cleanup, hcell =>
      cases hcell
      simp [Machine.invokesAt, Event.isBorn, Invocation.isDrop]

/-- What one call on a handle does to the instance there and to memory, and the method it
calls. -/
structure World.Frame (w : World P) (handle : Handle) : Prop where
  connectPort : ∀ port data w', w.step (.connectPort handle port data) = some w' →
    ∃ inst inst', w.heap handle = some inst ∧ w'.heap handle = some inst' ∧
      inst'.plugin = inst.plugin ∧ inst'.portPtrs = inst.portPtrs.set port data ∧
      w'.memory = w.memory ∧ w'.log = w.log
  activate : ∀ w', w.step (.activate handle) = some w' →
    ∃ inst inst', w.heap handle = some inst ∧ w'.heap handle = some inst' ∧
      inst'.plugin = P.activate inst.plugin ∧ inst'.portPtrs = inst.portPtrs ∧
      w'.memory = w.memory ∧ w'.log = w.log ++ [(handle, .activate)]
  run : ∀ frames w', w.step (.run handle frames) = some w' →
    ∃ inst inst' ports, w.heap handle = some inst ∧ w'.heap handle = some inst' ∧
      (P.run inst.plugin frames).exec ports w.memory = .ok (inst'.plugin, w'.memory) ∧
      inst'.portPtrs = inst.portPtrs ∧ w'.log = w.log ++ [(handle, .run frames ports)] ∧
      ports.ptrs = inst.portPtrs ∧ ports.descriptors = P.ports ∧ ports.frames = frames
  deactivate : ∀ w', w.step (.deactivate handle) = some w' →
    ∃ inst inst', w.heap handle = some inst ∧ w'.heap handle = some inst' ∧
      inst'.plugin = P.deactivate inst.plugin ∧ inst'.portPtrs = inst.portPtrs ∧
      w'.memory = w.memory ∧ w'.log = w.log ++ [(handle, .deactivate)]
  cleanup : ∀ w', w.step (.cleanup handle) = some w' →
    w'.heap handle = none ∧ w'.memory = w.memory ∧ w'.log = w.log ++ [(handle, .drop)]

/-- A `run` that returns keeps the bindings, and otherwise is the plugin's. -/
theorem Instance.run_eq_ok {inst inst' : Instance P} {frames : ℕ} {m m' : Memory α}
    (h : inst.run frames m = .ok (inst', m')) :
    (P.run inst.plugin frames).exec (inst.ports frames) m = .ok (inst'.plugin, m') ∧
      inst'.portPtrs = inst.portPtrs := by
  unfold run at h
  split at h
  · cases h
  · next hexec =>
    cases h
    exact ⟨hexec, rfl⟩

theorem World.frame (w : World P) (handle : Handle) : w.Frame handle where
  connectPort := by
    intro port data w' h
    cases World.step_cases h with
    | connectPort hlive hok =>
      obtain ⟨-, hplugin, hptrs⟩ := Instance.connectPort_eq_ok hok
      exact ⟨_, _, hlive, (put_heap ..).trans (if_pos rfl), hplugin, hptrs, rfl, rfl⟩
  activate := by
    intro w' h
    cases World.step_cases h with
    | activate hlive =>
      exact ⟨_, _, hlive, (put_heap ..).trans (if_pos rfl), rfl, rfl, rfl, rfl⟩
  run := by
    intro frames w' h
    cases World.step_cases h with
    | run hlive hok =>
      obtain ⟨hexec, hptrs⟩ := Instance.run_eq_ok hok
      exact ⟨_, _, _, hlive, (put_heap ..).trans (if_pos rfl), hexec, hptrs, rfl, rfl, rfl, rfl⟩
  deactivate := by
    intro w' h
    cases World.step_cases h with
    | deactivate hlive =>
      exact ⟨_, _, hlive, (put_heap ..).trans (if_pos rfl), rfl, rfl, rfl, rfl⟩
  cleanup := by
    intro w' h
    cases World.step_cases h with
    | cleanup hlive => exact ⟨(put_heap ..).trans (if_pos rfl), rfl, rfl⟩

/-- **Bindings and lifecycle.** What a host does at one handle is a run of the abstract
machine: the methods called there are the machine's, the instance there has its plugin and
its bindings, and every plugin made there is dropped once, at its cleanup. -/
theorem lifecycle {memory : Memory α} {as : List (Call α)} {w : World P}
    (hrun : Transition.run World.step (.start P memory) as = some w) (handle : Handle) :
    (∃ life, Transition.run Life.step (.start P)
          (Transition.along World.step (eventAt handle) (.start P memory) as) = some life ∧
        Stands handle w life ∧
        (Transition.along World.step (eventAt handle) (.start P memory) as).countP Event.isBorn =
          (w.logAt handle).countP Invocation.isDrop +
            if (w.heap handle).isSome then 1 else 0) ∧
      (∀ inst, w.heap handle = some inst → ∃ before sampleRate plugin calls,
        Transition.along World.step (eventAt handle) (.start P memory) as =
            before ++ .born sampleRate :: calls.map .call ∧
          P.instantiate (sampleRate.setWidth 32) = .ok plugin ∧
          inst.portPtrs.length = P.ports.length ∧
          (∀ port < P.ports.length,
            inst.portPtrs[port]? = some ((lastConnect port calls).getD 0)) ∧
          ((∀ port < P.ports.length, (lastConnect port calls).isSome) →
            ∀ frames, Serves (inst.ports frames) fun port => lastConnect port calls)) ∧
      w.Frame handle := by
  have hstart : Stands handle (.start P memory) (.start P) := ⟨.none, rfl⟩
  obtain ⟨life, hlife, hstands⟩ :=
    Transition.run_simulation (fun u a v life h => h.step) hrun hstart
  refine ⟨⟨life, hlife, hstands, ?_⟩, ?_, w.frame handle⟩
  · rw [life.drops hlife, hstands.invoked, hstands.isSome_eq]
  · intro inst hlive
    have hmachine := hstands.machine
    have hcell := life.machine_run hlife
    generalize life.machine = machine at hmachine hcell
    rw [hlive] at hmachine
    cases hmachine with
    | @some _ m hrefines =>
      obtain ⟨before, sampleRate, born, calls, hevents, hcreate, hcalls⟩ := life_of_run hcell
      obtain ⟨plugin, hok, rfl⟩ := Machine.create_eq_some.mp hcreate
      have hbindings : m.bindings = fun port => lastConnect port calls :=
        funext (Machine.bindings_of_run hcalls)
      refine ⟨before, sampleRate, plugin, calls, hevents, hok, inst.portPtrs_length, ?_, ?_⟩
      · intro port hport
        rw [hrefines.table, m.table_getElem?, if_pos hport, hbindings]
      · intro hall frames
        rw [hrefines.ports_eq, ← hbindings]
        refine m.serves ?_ frames
        rw [hbindings]
        exact hall

/-- A handle used by two gain plugins one after the other, the second one run in place and
then reconnected. -/
theorem lifecycle_reconnected :
    ∃ (as : List (Call ℕ)) (w : World (Gain.plugin : Plugin ℕ Unit)),
      Transition.run World.step (.start Gain.plugin fun ptr => ptr) as = some w ∧
      (w.heap 1).map Instance.portPtrs = some [10, 50, 41] ∧ (w.logAt 1).length = 4 ∧
      (∃ life, Transition.run Life.step (.start Gain.plugin)
            (Transition.along World.step (eventAt 1) (.start Gain.plugin fun ptr => ptr) as) =
              some life ∧
          Stands 1 w life ∧
          (Transition.along World.step (eventAt 1)
              (.start Gain.plugin fun ptr => ptr) as).countP Event.isBorn =
            (w.logAt 1).countP Invocation.isDrop + if (w.heap 1).isSome then 1 else 0) ∧
      w.Frame 1 := by
  refine ⟨[.instantiate 48000#64 1, .activate 1, .cleanup 1, .instantiate 44100#64 1,
      .connectPort 1 0 10, .connectPort 1 1 10, .connectPort 1 2 41, .run 1 3,
      .connectPort 1 1 50, .deactivate 1], ?w, ?run, ?_, ?_, (lifecycle ?run 1).1,
    (lifecycle ?run 1).2.2⟩
  case run => rfl
  all_goals rfl

end Entry
