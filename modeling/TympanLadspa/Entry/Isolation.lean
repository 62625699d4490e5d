import TympanLadspa.Entry.Shims
import TympanLadspa.Examples.Gain

/-!
# Isolation of instances

Whatever a host does with many instances, what is at one handle is what the events at that
handle make of it: the other instances, the allocator and the memory outside the bound
buffers have no part in it.
-/

namespace Entry

open Port (Ptr Memory Ports Panic Prog)
open Transition (Reaches)

variable {α σ : Type} {P : Plugin α σ}

namespace Instance

variable {inst inst' : Instance P}

theorem connectPort_eq_ok {port : ℕ} {data : Ptr}
    (h : inst.connectPort port data = .ok inst') :
    port < P.ports.length ∧ inst'.plugin = inst.plugin ∧
      inst'.portPtrs = inst.portPtrs.set port data := by
  unfold connectPort at h
  split at h
  · next hport =>
    cases h
    exact ⟨inst.portPtrs_length ▸ hport, rfl, rfl⟩
  · cases h

/-- `connect_port` changes one entry of the table. -/
theorem step_connectPort {port : ℕ} {data : Ptr}
    (h : inst.step (.connectPort port data) = some inst') :
    port < P.ports.length ∧ inst'.plugin = inst.plugin ∧
      inst'.portPtrs = inst.portPtrs.set port data := by
  simp only [step] at h
  cases hconnect : inst.connectPort port data with
  | error panic =>
    rw [hconnect] at h
    cases h
  | ok next =>
    rw [hconnect] at h
    cases h
    exact connectPort_eq_ok hconnect

/-- `run` changes the plugin, to what it returns on the bound ports. -/
theorem step_run {frames : ℕ} {memory : Memory α} :
    inst.step (.run frames memory) = some inst' ↔ ∃ plugin memory',
      (P.run inst.plugin frames).exec (inst.ports frames) memory = .ok (plugin, memory') ∧
        inst' = { inst with plugin := plugin } := by
  simp only [step, run]
  cases hexec : (P.run inst.plugin frames).exec (inst.ports frames) memory with
  | error panic => simp [Except.toOption]
  | ok r =>
    obtain ⟨plugin, memory'⟩ := r
    simp [Except.toOption, eq_comm]

end Instance

namespace World

theorem put_heap (w : World P) (handle : Handle) (inst : Option (Instance P)) (h : Handle) :
    (w.put handle inst).heap h = if h = handle then inst else w.heap h := by
  rw [put]
  by_cases hh : h = handle
  · rw [hh, if_pos rfl]
    exact Function.update_self ..
  · rw [if_neg hh]
    exact Function.update_of_ne hh ..

theorem deref_eq_ok {w : World P} {handle : Handle} {inst : Instance P} :
    w.deref handle = .ok inst ↔ w.heap handle = some inst := by
  unfold deref
  cases w.heap handle <;> simp

/-- What a call that returns does: it makes an instance, acts on one, destroys one, or
touches none. -/
inductive Does (w : World P) : Call α → World P → Prop
  | instantiate {sampleRate : BitVec 64} {address : Handle} {plugin : σ}
      (hfree : w.heap address = none) (hnull : address ≠ 0)
      (hok : P.instantiate (sampleRate.setWidth 32) = .ok plugin) :
      Does w (.instantiate sampleRate address) (w.put address (some (.new P plugin)))
  | refused {sampleRate : BitVec 64} {address : Handle} {e : InstantiateError}
      (herr : P.instantiate (sampleRate.setWidth 32) = .error e) :
      Does w (.instantiate sampleRate address) w
  | connectPort {handle : Handle} {port : ℕ} {data : Ptr} {inst inst' : Instance P}
      (hlive : w.heap handle = some inst) (hok : inst.connectPort port data = .ok inst') :
      Does w (.connectPort handle port data) (w.put handle (some inst'))
  | activate {handle : Handle} {inst : Instance P} (hlive : w.heap handle = some inst) :
      Does w (.activate handle) ((w.put handle (some inst.activate)).record handle .activate)
  | run {handle : Handle} {sampleCount : ℕ} {inst inst' : Instance P} {memory : Memory α}
      (hlive : w.heap handle = some inst)
      (hok : inst.run sampleCount w.memory = .ok (inst', memory)) :
      Does w (.run handle sampleCount)
        { (w.put handle (some inst')).record handle (.run sampleCount (inst.ports sampleCount))
          with memory := memory }
  | deactivate {handle : Handle} {inst : Instance P} (hlive : w.heap handle = some inst) :
      Does w (.deactivate handle)
        ((w.put handle (some inst.deactivate)).record handle .deactivate)
  | cleanup {handle : Handle} {inst : Instance P} (hlive : w.heap handle = some inst) :
      Does w (.cleanup handle) ((w.put handle none).record handle .drop)
  | write {ptr : Ptr} {value : α} :
      Does w (.write ptr value) { w with memory := Function.update w.memory ptr value }

private theorem toOption_eq_some {β : Type} {x : Except Fault β} {b : β} :
    x.toOption = some b ↔ x = .ok b := by
  cases x <;> simp [Except.toOption]

theorem step_cases {w w' : World P} {c : Call α} (h : w.step c = some w') : Does w c w' := by
  cases c with
  | instantiate sampleRate address =>
    simp only [step] at h
    split at h
    · next hfree =>
      split at h
      · cases h
      · next hnull =>
        cases h
        unfold instantiateShim
        split
        · next plugin hok => exact .instantiate hfree hnull hok
        · next e herr => exact .refused herr
    · cases h
  | connectPort handle port data =>
    obtain ⟨inst, hderef, h⟩ := Port.bind_eq_ok.mp (toOption_eq_some.mp h)
    split at h
    · next inst' hok =>
      cases h
      exact .connectPort (deref_eq_ok.mp hderef) hok
    · cases h
  | activate handle =>
    obtain ⟨inst, hderef, h⟩ := Port.bind_eq_ok.mp (toOption_eq_some.mp h)
    cases h
    exact .activate (deref_eq_ok.mp hderef)
  | run handle sampleCount =>
    obtain ⟨inst, hderef, h⟩ := Port.bind_eq_ok.mp (toOption_eq_some.mp h)
    split at h
    · next inst' memory hok =>
      cases h
      exact .run (deref_eq_ok.mp hderef) hok
    · cases h
  | deactivate handle =>
    obtain ⟨inst, hderef, h⟩ := Port.bind_eq_ok.mp (toOption_eq_some.mp h)
    cases h
    exact .deactivate (deref_eq_ok.mp hderef)
  | cleanup handle =>
    obtain ⟨inst, hderef, h⟩ := Port.bind_eq_ok.mp (toOption_eq_some.mp h)
    cases h
    exact .cleanup (deref_eq_ok.mp hderef)
  | write ptr value =>
    cases h
    exact .write

/-- An event at one address is nothing anywhere else. -/
private theorem project_put {handle k : Handle} {w : World P} {inst : Option (Instance P)}
    {e : Event α} (hstep : cellStep (Instance.create P) Instance.step (w.heap k) e = some inst) :
    Transition.run (cellStep (Instance.create P) Instance.step) (w.heap handle)
        (if k = handle then [e] else []) =
      some ((w.put k inst).heap handle) := by
  rw [put_heap]
  by_cases heq : k = handle
  · subst heq
    rw [if_pos rfl, if_pos rfl, Transition.run_cons, hstep]
    rfl
  · rw [if_neg heq, if_neg (Ne.symm heq)]
    rfl

/-- **Step lemma**: a call is, at each handle, the event it is there. -/
theorem step_project (handle : Handle) {w w' : World P} {c : Call α}
    (h : w.step c = some w') :
    Transition.run (cellStep (Instance.create P) Instance.step) (w.heap handle)
        (eventAt handle w c) = some (w'.heap handle) := by
  cases step_cases h with
  | instantiate hfree hnull hok =>
    simp only [eventAt, hok]
    exact project_put (by simp [cellStep, Instance.create, hfree, hok, Except.toOption])
  | refused herr => simp [eventAt, herr]
  | connectPort hlive hok =>
    exact project_put (by simp [cellStep, hlive, Instance.step, hok, Except.toOption])
  | activate hlive => exact project_put (by simp [cellStep, hlive, Instance.step])
  | run hlive hok =>
    exact project_put (by simp [cellStep, hlive, Instance.step, hok, Except.toOption])
  | deactivate hlive => exact project_put (by simp [cellStep, hlive, Instance.step])
  | cleanup hlive => exact project_put (by simp [cellStep, hlive])
  | write => rfl

end World

/-- The handle a call is on; an instantiation is on the one it may be given. -/
def Call.handle? : Call α → Option Handle
  | instantiate _ address => some address
  | connectPort handle _ _ | activate handle | run handle _ | deactivate handle
  | cleanup handle => some handle
  | write _ _ => none

/-- A call on another handle leaves an instance alone. -/
theorem World.step_other {w w' : World P} {c : Call α} (h : w.step c = some w')
    {handle : Handle} (hne : c.handle? ≠ some handle) : w'.heap handle = w.heap handle := by
  have hproject := World.step_project handle h
  have hnone : eventAt handle w c = [] := by
    cases c with
    | write ptr value => rfl
    | _ =>
      refine if_neg fun heq => hne ?_
      exact congrArg some heq
  rw [hnone] at hproject
  exact (Option.some.inj hproject).symm

/-- Two calls that look the same to an instance: a run may start from another memory, as
long as the bound buffers hold the same. -/
def Local.Same (inst : Instance P) : Local α → Local α → Prop
  | run frames memory, run frames' memory' =>
    frames' = frames ∧ Set.EqOn memory memory' (inst.ports frames).reach
  | c, c' => c' = c

/-- Two lists of calls that look the same to an instance all the way. -/
def SameInputs : Instance P → List (Local α) → List (Local α) → Prop
  | _, [], [] => True
  | inst, c :: cs, c' :: cs' =>
    c.Same inst c' ∧ ∀ next, inst.step c = some next → SameInputs next cs cs'
  | _, _, _ => False

theorem Local.Same.step {inst next : Instance P} {c c' : Local α} (h : c.Same inst c')
    (hstep : inst.step c = some next) : inst.step c' = some next := by
  cases c with
  | run frames memory =>
    cases c' with
    | run frames' memory' =>
      obtain ⟨rfl, heq⟩ := h
      obtain ⟨plugin, m₁, hexec, hnext⟩ := Instance.step_run.mp hstep
      obtain ⟨m₁', hexec', -⟩ := Prog.exec_congr heq hexec
      exact Instance.step_run.mpr ⟨plugin, m₁', hexec', hnext⟩
    | _ => cases h
  | _ =>
    cases h
    exact hstep

/-- An instance is determined by what its calls look like to it. -/
theorem SameInputs.run {inst next : Instance P} {cs cs' : List (Local α)}
    (h : SameInputs inst cs cs') (hrun : Transition.run Instance.step inst cs = some next) :
    Transition.run Instance.step inst cs' = some next := by
  induction cs generalizing inst cs' with
  | nil =>
    cases cs' with
    | nil => exact hrun
    | cons c' cs' => cases h
  | cons c cs ih =>
    cases cs' with
    | nil => cases h
    | cons c' cs' =>
      obtain ⟨mid, hmid, hrest⟩ := Transition.run_cons_eq_some.mp hrun
      exact Transition.run_cons_eq_some.mpr ⟨mid, h.1.step hmid, ih (h.2 mid hmid) hrest⟩

/-- What has happened at an address with something at it: things before its time, its birth,
and the calls on it since. -/
theorem life_of_run {τ : Type} {create : BitVec 64 → Option τ} {step : τ → Local α → Option τ}
    {events : List (Event α)} {t : τ}
    (h : Transition.run (cellStep create step) none events = some (some t)) :
    ∃ before sampleRate born calls, events = before ++ .born sampleRate :: calls.map .call ∧
      create sampleRate = some born ∧ Transition.run step born calls = some t := by
  induction events using List.reverseRecOn generalizing t with
  | nil => cases h
  | append_singleton es e ih =>
    obtain ⟨cell, hcell, hlast⟩ := Transition.run_concat_eq_some.mp h
    match cell, e, hlast with
    | none, .born sampleRate, hlast =>
      obtain ⟨born, hcreate, heq⟩ := Option.map_eq_some_iff.mp hlast
      cases heq
      exact ⟨es, sampleRate, t, [], rfl, hcreate, rfl⟩
    | some t₀, .call c, hlast =>
      obtain ⟨t', hstep, heq⟩ := Option.map_eq_some_iff.mp hlast
      cases heq
      obtain ⟨before, sampleRate, born, calls, rfl, hcreate, hrun⟩ := ih hcell
      refine ⟨before, sampleRate, born, calls ++ [c], ?_, hcreate,
        Transition.run_concat_eq_some.mpr ⟨t₀, hrun, hstep⟩⟩
      simp
    | some _, .cleanup, hlast => cases hlast

/-- A new instance comes from a plugin that was made. -/
theorem Instance.create_eq_some {sampleRate : BitVec 64} {inst : Instance P} :
    Instance.create P sampleRate = some inst ↔
      ∃ plugin, P.instantiate (sampleRate.setWidth 32) = .ok plugin ∧ .new P plugin = inst := by
  rw [create, Option.map_eq_some_iff]
  cases P.instantiate (sampleRate.setWidth 32) <;> simp [Except.toOption]

/-- The life of a live instance in a trace. -/
theorem life_at {memory : Memory α} {as : List (Call α)} {w : World P} {handle : Handle}
    {inst : Instance P} (hrun : Transition.run World.step (.start P memory) as = some w)
    (hlive : w.heap handle = some inst) :
    ∃ before sampleRate plugin calls,
      Transition.along World.step (eventAt handle) (.start P memory) as =
          before ++ .born sampleRate :: calls.map .call ∧
        P.instantiate (sampleRate.setWidth 32) = .ok plugin ∧
        Transition.run Instance.step (.new P plugin) calls = some inst := by
  have hproject := Transition.run_project (fun u a v => World.step_project handle) hrun
  rw [hlive] at hproject
  obtain ⟨before, sampleRate, born, calls, hevents, hcreate, hcalls⟩ := life_of_run hproject
  obtain ⟨plugin, hok, rfl⟩ := Instance.create_eq_some.mp hcreate
  exact ⟨before, sampleRate, plugin, calls, hevents, hok, hcalls⟩

/-- **Invariant rule** for a plugin: what `instantiate` gives and the methods keep holds of
the plugin of every live instance after any trace. -/
theorem plugin_invariant {I : σ → Prop}
    (hnew : ∀ rate plugin, P.instantiate rate = .ok plugin → I plugin)
    (hactivate : ∀ plugin, I plugin → I (P.activate plugin))
    (hrun : ∀ plugin frames, I plugin → (P.run plugin frames).Returns I)
    (hdeactivate : ∀ plugin, I plugin → I (P.deactivate plugin))
    {memory : Memory α} {as : List (Call α)} {w : World P} {handle : Handle}
    {inst : Instance P} (htrace : Transition.run World.step (.start P memory) as = some w)
    (hlive : w.heap handle = some inst) : I inst.plugin := by
  obtain ⟨before, sampleRate, plugin, calls, -, hok, hcalls⟩ := life_at htrace hlive
  refine Transition.run_invariant (I := fun inst : Instance P => I inst.plugin) ?_ hcalls
    (hnew _ _ hok)
  rintro inst c inst' - hI hstep
  cases c with
  | connectPort port data =>
    rw [(Instance.step_connectPort hstep).2.1]
    exact hI
  | activate =>
    cases hstep
    exact hactivate _ hI
  | run frames memory =>
    obtain ⟨plugin', memory', hexec, rfl⟩ := Instance.step_run.mp hstep
    exact (hrun _ _ hI).exec hexec
  | deactivate =>
    cases hstep
    exact hdeactivate _ hI

/-- **Instance isolation.** After any trace of a host: a live instance is what the calls on
its handle since its own instantiation make of it, whatever else the memory held at its
runs; a call on another handle leaves it alone; an instantiation that fails returns NULL
and changes nothing; a new instance has every port unbound. -/
theorem isolation {memory : Memory α} {as : List (Call α)} {w : World P}
    (hrun : Transition.run World.step (.start P memory) as = some w) :
    (∀ handle inst, w.heap handle = some inst → ∃ before sampleRate plugin calls,
      Transition.along World.step (eventAt handle) (.start P memory) as =
          before ++ .born sampleRate :: calls.map .call ∧
        P.instantiate (sampleRate.setWidth 32) = .ok plugin ∧
        ∀ calls', SameInputs (.new P plugin) calls calls' →
          Transition.run Instance.step (.new P plugin) calls' = some inst) ∧
      (∀ c w' handle, w.step c = some w' → c.handle? ≠ some handle →
        w'.heap handle = w.heap handle) ∧
      (∀ sampleRate address e, P.instantiate (sampleRate.setWidth 32) = .error e →
        w.instantiateShim sampleRate address = (0, w)) ∧
      ∀ sampleRate address w' inst, w.step (.instantiate sampleRate address) = some w' →
        w'.heap address = some inst → ∀ ptr ∈ inst.portPtrs, ptr = 0 := by
  refine ⟨?_, fun c w' handle h hne => World.step_other h hne, ?_, ?_⟩
  · intro handle inst hlive
    obtain ⟨before, sampleRate, plugin, calls, hevents, hok, hcalls⟩ := life_at hrun hlive
    exact ⟨before, sampleRate, plugin, calls, hevents, hok, fun calls' h => h.run hcalls⟩
  · intro sampleRate address e herr
    rw [World.instantiateShim, herr]
  · intro sampleRate address w' inst hstep hlive
    cases World.step_cases hstep with
    | instantiate hfree hnull hok =>
      rw [World.put_heap, if_pos rfl] at hlive
      cases hlive
      exact fun ptr hptr => List.eq_of_mem_replicate hptr
    | refused herr =>
      simp only [World.step, hlive] at hstep
      cases hstep

/-- Two instances of the gain plugin, run in turn; the handle of the first one is given to a
third. -/
theorem isolation_after_reuse :
    ∃ (as : List (Call ℕ)) (w : World (Gain.plugin : Plugin ℕ Unit)),
      Transition.run World.step (.start Gain.plugin fun ptr => ptr) as = some w ∧
      w.memory 21 = 21 * 42 ∧ (w.heap 1).map Instance.portPtrs = some [0, 30, 0] ∧
      ∀ handle inst, w.heap handle = some inst → ∃ before sampleRate plugin calls,
        Transition.along World.step (eventAt handle) (.start Gain.plugin fun ptr => ptr) as =
            before ++ .born sampleRate :: calls.map .call ∧
          (Gain.plugin : Plugin ℕ Unit).instantiate (sampleRate.setWidth 32) = .ok plugin ∧
          ∀ calls', SameInputs (.new Gain.plugin plugin) calls calls' →
            Transition.run Instance.step (.new Gain.plugin plugin) calls' = some inst := by
  refine ⟨[.instantiate 48000#64 1, .instantiate 48000#64 2, .connectPort 1 0 10,
      .connectPort 2 0 20, .connectPort 2 1 20, .connectPort 1 1 10, .connectPort 2 2 42,
      .connectPort 1 2 41, .write 41 3, .run 2 2, .activate 1, .run 1 1, .cleanup 1,
      .instantiate 44100#64 1, .connectPort 1 1 30, .deactivate 2], ?w, ?run, ?_, ?_,
    (isolation ?run).1⟩
  case run => rfl
  all_goals rfl

end Entry
