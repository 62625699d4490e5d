import TympanLadspa.Entry.Isolation
import TympanLadspa.Port.Steps

/-!
# Hosts with several threads

A host may run different instances on different threads, so the operations of one run and
those of another come in any order, and other calls come in between. The calls on one
instance stay one after the other. As long as no run in progress writes what another one
reaches, there is a host with one thread that makes the same calls, each run at the moment
it returns, and finds the same instances and the same memory.
-/

namespace Entry

open Port (Ptr Memory Ports Panic Prog Agree)
open Transition (EachStep along)

variable {α σ : Type} {P : Plugin α σ}

/-- A call of `run_shim` in progress: the instance it found, and what its plugin has still
to do. -/
structure InRun (P : Plugin α σ) where
  inst : Instance P
  frames : ℕ
  rest : Prog α σ

namespace InRun

def ports (r : InRun P) : Ports α := r.inst.ports r.frames

/-- The run from its first operation on. -/
def whole (r : InRun P) : Prog α σ := P.run r.inst.plugin r.frames

end InRun

/-- The world, and the runs in progress. -/
structure Threads (P : Plugin α σ) where
  world : World P
  running : Handle → Option (InRun P)

/-- What happens next, on whichever thread: a call that is no run returns, a run begins, makes
one operation, or returns. -/
inductive Move (α : Type)
  | call (c : Call α)
  | enter (handle : Handle) (sampleCount : ℕ)
  | operate (handle : Handle)
  | leave (handle : Handle)

namespace Threads

/-- No run is in progress. -/
def idle (w : World P) : Threads P := ⟨w, fun _ => none⟩

def place (s : Threads P) (handle : Handle) (r : Option (InRun P)) : Threads P :=
  { s with running := Function.update s.running handle r }

/-- No run is in progress on the instance of a call. -/
def Serial (s : Threads P) (c : Call α) : Prop :=
  ∀ handle, c.handle? = some handle → s.running handle = none

/-- One call that is no run, on the thread of its instance. -/
def callStep (s : Threads P) (c : Call α) : Option (Threads P) :=
  match c with
  | .run _ _ => none
  | c =>
    if (c.handle?.bind s.running).isNone then
      (s.world.step c).map fun w => { s with world := w }
    else none

/-- `run_shim` up to the call of the plugin. -/
def enterStep (s : Threads P) (handle : Handle) (sampleCount : ℕ) : Option (Threads P) :=
  match s.running handle, s.world.deref handle with
  | none, .ok inst =>
    some (s.place handle (some ⟨inst, sampleCount, P.run inst.plugin sampleCount⟩))
  | _, _ => none

/-- One operation of the plugin. -/
def operateStep (s : Threads P) (handle : Handle) : Option (Threads P) :=
  match s.running handle with
  | none => none
  | some r => (r.rest.next r.ports s.world.memory).map fun (rest, memory) =>
      { s.place handle (some { r with rest := rest }) with
        world := { s.world with memory := memory } }

/-- `run_shim` from the return of the plugin on. -/
def leaveStep (s : Threads P) (handle : Handle) : Option (Threads P) :=
  match s.running handle with
  | some ⟨inst, frames, .done plugin⟩ =>
    some
      { s.place handle none with
        world := (s.world.put handle (some { inst with plugin := plugin })).record handle
          (.run frames (inst.ports frames)) }
  | _ => none

def step (s : Threads P) : Move α → Option (Threads P)
  | .call c => s.callStep c
  | .enter handle sampleCount => s.enterStep handle sampleCount
  | .operate handle => s.operateStep handle
  | .leave handle => s.leaveStep handle

/-- The calls that return in a step. -/
def returned (s : Threads P) : Move α → List (Call α)
  | .call c => [c]
  | .leave handle =>
    match s.running handle with
    | some r => [.run handle r.frames]
    | none => []
  | .enter _ _ | .operate _ => []

/-- The host's part: a run that begins does not write what another in progress reaches, nor
reach what it writes, and the host does not write what a run in progress reaches. -/
def Respects (s : Threads P) : Move α → Prop
  | .enter handle sampleCount => ∀ inst, s.world.heap handle = some inst →
    ∀ k r, s.running k = some r →
      Disjoint (inst.ports sampleCount).outputs r.ports.reach ∧
        Disjoint r.ports.outputs (inst.ports sampleCount).reach
  | .call (.write ptr _) => ∀ k r, s.running k = some r → ptr ∉ r.ports.reach
  | _ => True

/-- The cells that no run in progress writes. -/
def untouched (s : Threads P) : Set Ptr :=
  {p | ∀ handle r, s.running handle = some r → p ∉ r.ports.outputs}

-- ════════════════════════════════════════════════════════════════════════
-- What a step does
-- ════════════════════════════════════════════════════════════════════════

variable {s t : Threads P} {handle k : Handle}

theorem place_running (s : Threads P) (handle : Handle) (r : Option (InRun P)) (k : Handle) :
    (s.place handle r).running k = if k = handle then r else s.running k := by
  rw [place]
  by_cases hk : k = handle
  · rw [hk, if_pos rfl]
    exact Function.update_self ..
  · rw [if_neg hk]
    exact Function.update_of_ne hk ..

/-- A run in progress behind a move at `handle`. -/
theorem running_of_place {r : Option (InRun P)} {q : InRun P}
    (h : (s.place handle r).running k = some q) :
    k = handle ∧ r = some q ∨ k ≠ handle ∧ s.running k = some q := by
  rw [place_running] at h
  by_cases hk : k = handle
  · rw [if_pos hk] at h
    exact .inl ⟨hk, h⟩
  · rw [if_neg hk] at h
    exact .inr ⟨hk, h⟩

theorem callStep_of_ne_run {c : Call α} (hrun : ∀ handle n, c ≠ .run handle n) :
    s.callStep c = if (c.handle?.bind s.running).isNone then
      (s.world.step c).map fun w => { s with world := w } else none := by
  cases c with
  | run handle n => exact absurd rfl (hrun handle n)
  | _ => rfl

theorem callStep_eq_some {c : Call α} (h : s.callStep c = some t) :
    (∀ handle n, c ≠ .run handle n) ∧ s.Serial c ∧
      ∃ w, s.world.step c = some w ∧ t = { s with world := w } := by
  have hrun : ∀ handle n, c ≠ .run handle n := by
    rintro handle n rfl
    cases h
  refine ⟨hrun, ?_⟩
  rw [callStep_of_ne_run hrun] at h
  split at h
  · next hserial =>
    obtain ⟨w, hw, rfl⟩ := Option.map_eq_some_iff.mp h
    refine ⟨?_, w, hw, rfl⟩
    intro handle hhandle
    rw [hhandle] at hserial
    exact Option.isNone_iff_eq_none.mp hserial
  · cases h

theorem enterStep_eq_some {n : ℕ} (h : s.enterStep handle n = some t) :
    s.running handle = none ∧ ∃ inst, s.world.heap handle = some inst ∧
      t = s.place handle (some ⟨inst, n, P.run inst.plugin n⟩) := by
  unfold enterStep at h
  split at h
  · next hrunning hderef =>
    cases h
    exact ⟨hrunning, _, World.deref_eq_ok.mp hderef, rfl⟩
  · cases h

theorem enterStep_of_live {n : ℕ} {inst : Instance P} (hidle : s.running handle = none)
    (hlive : s.world.heap handle = some inst) :
    s.enterStep handle n = some (s.place handle (some ⟨inst, n, P.run inst.plugin n⟩)) := by
  simp only [enterStep, hidle, World.deref_eq_ok.mpr hlive]

theorem operateStep_eq_some (h : s.operateStep handle = some t) :
    ∃ r rest memory, s.running handle = some r ∧
      r.rest.next r.ports s.world.memory = some (rest, memory) ∧
      t = { s.place handle (some { r with rest := rest }) with
            world := { s.world with memory := memory } } := by
  unfold operateStep at h
  split at h
  · cases h
  · next r hr =>
    obtain ⟨⟨rest, memory⟩, hnext, rfl⟩ := Option.map_eq_some_iff.mp h
    exact ⟨r, rest, memory, hr, hnext, rfl⟩

theorem leaveStep_eq_some (h : s.leaveStep handle = some t) :
    ∃ inst frames plugin, s.running handle = some ⟨inst, frames, .done plugin⟩ ∧
      t = { s.place handle none with
            world := (s.world.put handle (some { inst with plugin := plugin })).record handle
              (.run frames (inst.ports frames)) } := by
  unfold leaveStep at h
  split at h
  · next inst frames plugin hr =>
    cases h
    exact ⟨inst, frames, plugin, hr, rfl⟩
  · cases h

end Threads

/-- A call that is no run and no write neither looks at the memory nor changes it. -/
theorem World.step_memory (w : World P) (m : Memory α) {c : Call α}
    (hrun : ∀ handle n, c ≠ .run handle n) (hwrite : ∀ ptr value, c ≠ .write ptr value) :
    World.step { w with memory := m } c = (w.step c).map fun w' => { w' with memory := m } := by
  cases c with
  | run handle n => exact absurd rfl (hrun handle n)
  | write ptr value => exact absurd rfl (hwrite ptr value)
  | instantiate sampleRate address =>
    simp only [step]
    cases w.heap address with
    | some inst => rfl
    | none =>
      by_cases hnull : address = 0
      · simp [hnull]
      · simp only [hnull, if_false, instantiateShim]
        cases P.instantiate (sampleRate.setWidth 32) <;> rfl
  | connectPort handle port data =>
    simp only [step, connectPortShim, deref]
    cases w.heap handle with
    | none => rfl
    | some inst =>
      simp only [bind, Except.bind]
      cases inst.connectPort port data <;> rfl
  | activate handle | deactivate handle | cleanup handle =>
    simp only [step, activateShim, deactivateShim, cleanupShim, deref]
    cases w.heap handle <;> rfl

theorem World.step_memory_eq {w w' : World P} {c : Call α} (h : w.step c = some w')
    (hrun : ∀ handle n, c ≠ .run handle n) (hwrite : ∀ ptr value, c ≠ .write ptr value) :
    w'.memory = w.memory := by
  have hmap : w.step c = (w.step c).map fun v => { v with memory := w.memory } :=
    w.step_memory w.memory hrun hwrite
  rw [h] at hmap
  have heq : w' = { w' with memory := w.memory } := Option.some.inj hmap
  rw [heq]

/-- What a run that returns does. -/
theorem World.step_run_eq_some {w w' : World P} {handle : Handle} {n : ℕ}
    (h : w.step (.run handle n) = some w') :
    ∃ inst plugin memory, w.heap handle = some inst ∧
      (P.run inst.plugin n).exec (inst.ports n) w.memory = .ok (plugin, memory) ∧
      w' = { (w.put handle (some { inst with plugin := plugin })).record handle
              (.run n (inst.ports n)) with memory := memory } := by
  cases step_cases h with
  | @run _ _ inst inst' memory hlive hok =>
    unfold Instance.run at hok
    split at hok
    · cases hok
    · next plugin memory' hexec =>
      cases hok
      exact ⟨inst, plugin, _, hlive, hexec, rfl⟩

/-- A run that returns, on a live instance. -/
theorem World.step_of_run {w : World P} {handle : Handle} {n : ℕ} {inst inst' : Instance P}
    {memory : Memory α} (hlive : w.heap handle = some inst)
    (hrun : inst.run n w.memory = .ok (inst', memory)) :
    w.step (.run handle n) = some
      { (w.put handle (some inst')).record handle (.run n (inst.ports n))
        with memory := memory } := by
  simp only [step, runShim, deref, hlive, bind, Except.bind, hrun]
  rfl

namespace Threads

-- ════════════════════════════════════════════════════════════════════════
-- The host with one thread
-- ════════════════════════════════════════════════════════════════════════

/-- The threads beside the world `w` of a host with one thread that has made the runs that
have returned: what differs is in the outputs of the runs in progress, and each of these
will come to what it comes to in `w`. -/
structure Refines (s : Threads P) (w : World P) : Prop where
  heap : s.world.heap = w.heap
  log : s.world.log = w.log
  memory : Set.EqOn w.memory s.world.memory s.untouched
  live : ∀ handle r, s.running handle = some r → w.heap handle = some r.inst
  outcome : ∀ handle r, s.running handle = some r →
    Agree r.ports.reach (r.whole.exec r.ports w.memory) (r.rest.exec r.ports s.world.memory)
  apart : ∀ handle k r q, handle ≠ k → s.running handle = some r → s.running k = some q →
    Disjoint r.ports.outputs q.ports.reach

variable {s t : Threads P} {w : World P} {handle : Handle}

theorem Refines.start (w : World P) : (idle w).Refines w where
  heap := rfl
  log := rfl
  memory := Set.eqOn_refl _ _
  live := by rintro handle r ⟨⟩
  outcome := by rintro handle r ⟨⟩
  apart := by rintro handle k r q - ⟨⟩

/-- With no run in progress the two worlds are one. -/
theorem Refines.eq_of_idle (h : s.Refines w) (hidle : ∀ handle, s.running handle = none) :
    s.world = w := by
  obtain ⟨⟨heap, memory, log⟩, running⟩ := s
  obtain ⟨heap', memory', log'⟩ := w
  obtain rfl : heap = heap' := h.heap
  obtain rfl : log = log' := h.log
  obtain rfl : memory = memory' := by
    funext p
    refine (h.memory ?_).symm
    intro handle r hr
    rw [hidle handle] at hr
    cases hr
  rfl

/-- A run outside of whose reach the memory changes comes to the same. -/
theorem Refines.outcome_congr (h : s.Refines w) {r : InRun P} (hr : s.running handle = some r)
    {m m' : Memory α} (hm : Set.EqOn m w.memory r.ports.reach)
    (hm' : Set.EqOn s.world.memory m' r.ports.reach) :
    Agree r.ports.reach (r.whole.exec r.ports m) (r.rest.exec r.ports m') :=
  ((r.whole.exec_agree hm).trans (h.outcome handle r hr)).trans (r.rest.exec_agree hm')

/-- A call on an instance that is not in a run. -/
theorem Refines.call (h : s.Refines w) {c : Call α} {v : World P}
    (hserial : s.Serial c) (hstep : s.world.step c = some v)
    (hrun : ∀ handle n, c ≠ .run handle n) (hwrite : ∀ ptr value, c ≠ .write ptr value) :
    ∃ w', w.step c = some w' ∧ Refines { s with world := v } w' := by
  have hw : w = { s.world with memory := w.memory } := by
    obtain ⟨heap, memory, log⟩ := w
    obtain rfl : s.world.heap = heap := h.heap
    obtain rfl : s.world.log = log := h.log
    rfl
  have hmemory := World.step_memory_eq hstep hrun hwrite
  refine ⟨{ v with memory := w.memory }, ?_, rfl, rfl, ?_, ?_, ?_, h.apart⟩
  · rw [hw, World.step_memory s.world w.memory hrun hwrite, hstep]
    rfl
  · rw [hmemory]
    exact h.memory
  · intro handle r hr
    have hne : c.handle? ≠ some handle := by
      intro hhandle
      rw [hserial handle hhandle] at hr
      cases hr
    change v.heap handle = some r.inst
    rw [World.step_other hstep hne, h.heap]
    exact h.live handle r hr
  · intro handle r hr
    change Agree _ _ (r.rest.exec r.ports v.memory)
    rw [hmemory]
    exact h.outcome handle r hr

/-- The host writes where no run in progress reaches. -/
theorem Refines.write (h : s.Refines w) {ptr : Ptr} {value : α}
    (hrespects : ∀ k r, s.running k = some r → ptr ∉ r.ports.reach) :
    Refines { s with world :=
        { s.world with memory := Function.update s.world.memory ptr value } }
      { w with memory := Function.update w.memory ptr value } where
  heap := h.heap
  log := h.log
  memory := by
    intro p hp
    change Function.update w.memory ptr value p = Function.update s.world.memory ptr value p
    by_cases heq : p = ptr
    · subst heq
      rw [Function.update_self, Function.update_self]
    · rw [Function.update_of_ne heq, Function.update_of_ne heq]
      exact h.memory hp
  live := h.live
  outcome := by
    intro handle r hr
    have hne : ∀ p ∈ r.ports.reach, p ≠ ptr := by
      rintro p hp rfl
      exact hrespects handle r hr hp
    apply h.outcome_congr hr
    · intro p hp
      exact Function.update_of_ne (hne p hp) ..
    · intro p hp
      exact (Function.update_of_ne (hne p hp) ..).symm
  apart := h.apart

/-- A run begins. -/
theorem Refines.enter (h : s.Refines w) {n : ℕ} {inst : Instance P}
    (hidle : s.running handle = none) (hlive : s.world.heap handle = some inst)
    (hrespects : s.Respects (.enter handle n)) :
    Refines (s.place handle (some ⟨inst, n, P.run inst.plugin n⟩)) w where
  heap := h.heap
  log := h.log
  memory := by
    intro p hp
    apply h.memory
    intro k r hk
    have hne : k ≠ handle := by
      rintro rfl
      rw [hidle] at hk
      cases hk
    apply hp k r
    rw [place_running, if_neg hne]
    exact hk
  live := by
    intro k r hk
    rcases running_of_place hk with ⟨rfl, heq⟩ | ⟨-, hk⟩
    · cases heq
      rw [← h.heap]
      exact hlive
    · exact h.live k r hk
  outcome := by
    intro k r hk
    rcases running_of_place hk with ⟨rfl, heq⟩ | ⟨-, hk⟩
    · cases heq
      apply Prog.exec_agree
      intro p hp
      apply h.memory
      intro k' q hq hpq
      exact Set.disjoint_left.mp (hrespects inst hlive k' q hq).2 hpq hp
    · exact h.outcome k r hk
  apart := by
    intro k k' r q hne hk hk'
    rcases running_of_place hk with ⟨rfl, heq⟩ | ⟨-, hr⟩
    · cases heq
      rcases running_of_place hk' with ⟨rfl, -⟩ | ⟨-, hq⟩
      · exact absurd rfl hne
      · exact (hrespects inst hlive k' q hq).1
    · rcases running_of_place hk' with ⟨rfl, heq⟩ | ⟨-, hq⟩
      · cases heq
        exact (hrespects inst hlive k r hr).2
      · exact h.apart k k' r q hne hr hq

/-- One operation of a run in progress. -/
theorem Refines.operate (h : s.Refines w) {r : InRun P} {rest : Prog α σ} {memory : Memory α}
    (hr : s.running handle = some r)
    (hnext : r.rest.next r.ports s.world.memory = some (rest, memory)) :
    Refines { s.place handle (some { r with rest := rest }) with
      world := { s.world with memory := memory } } w where
  heap := h.heap
  log := h.log
  memory := by
    intro p hp
    have hout : p ∉ r.ports.outputs := by
      apply hp handle { r with rest := rest }
      exact (place_running ..).trans (if_pos rfl)
    change w.memory p = memory p
    rw [Prog.next_frame hnext hout]
    apply h.memory
    intro k q hk
    by_cases hkh : k = handle
    · subst hkh
      rw [hr] at hk
      cases hk
      exact hout
    · apply hp k q
      exact (place_running ..).trans ((if_neg hkh).trans hk)
  live := by
    intro k q hk
    rcases running_of_place hk with ⟨rfl, heq⟩ | ⟨-, hk⟩
    · cases heq
      exact h.live k r hr
    · exact h.live k q hk
  outcome := by
    intro k q hk
    rcases running_of_place hk with ⟨rfl, heq⟩ | ⟨hne, hk⟩
    · cases heq
      change Agree r.ports.reach _ (rest.exec r.ports memory)
      rw [← Prog.exec_next hnext]
      exact h.outcome k r hr
    · -- the operation writes where the other run does not look
      apply h.outcome_congr hk (Set.eqOn_refl _ _)
      intro p hp
      refine (Prog.next_frame hnext ?_).symm
      exact Set.disjoint_right.mp (h.apart handle k r q (Ne.symm hne) hr hk) hp
  apart := by
    have hports : ∀ k q, (s.place handle (some { r with rest := rest })).running k = some q →
        ∃ q', s.running k = some q' ∧ q'.ports = q.ports := by
      intro k q hk
      rcases running_of_place hk with ⟨rfl, heq⟩ | ⟨-, hk⟩
      · cases heq
        exact ⟨r, hr, rfl⟩
      · exact ⟨q, hk, rfl⟩
    intro k k' q q' hne hk hk'
    obtain ⟨p, hp, hpq⟩ := hports k q hk
    obtain ⟨p', hp', hpq'⟩ := hports k' q' hk'
    rw [← hpq, ← hpq']
    exact h.apart k k' p p' hne hp hp'

/-- A run returns: the host with one thread makes it now. -/
theorem Refines.leave (h : s.Refines w) {inst : Instance P} {frames : ℕ} {plugin : σ}
    (hr : s.running handle = some ⟨inst, frames, .done plugin⟩) :
    ∃ w', w.step (.run handle frames) = some w' ∧
      Refines { s.place handle none with
        world := (s.world.put handle (some { inst with plugin := plugin })).record handle
          (.run frames (inst.ports frames)) } w' := by
  have hlive := h.live handle _ hr
  obtain ⟨m', hwhole, hm'⟩ := (h.outcome handle _ hr).eq_ok
  have hexec : (P.run inst.plugin frames).exec (inst.ports frames) w.memory =
      .ok (plugin, m') := hwhole
  have hrun : inst.run frames w.memory = .ok ({ inst with plugin := plugin }, m') := by
    rw [Instance.run, hexec]
  have hframe : ∀ p, p ∉ (inst.ports frames).outputs → m' p = w.memory p :=
    fun p hp => Prog.exec_frame hexec hp
  have hother : ∀ k q, (s.place handle none).running k = some q →
      k ≠ handle ∧ s.running k = some q := by
    intro k q hk
    rcases running_of_place hk with ⟨-, heq⟩ | hk
    · cases heq
    · exact hk
  refine ⟨_, World.step_of_run hlive hrun, ?heap, ?log, ?cells, ?live, ?outcome, ?apart⟩
  case heap =>
    change Function.update s.world.heap handle _ = Function.update w.heap handle _
    rw [h.heap]
  case log =>
    change s.world.log ++ _ = w.log ++ _
    rw [h.log]
  case cells =>
    intro p hp
    by_cases hreach : p ∈ (inst.ports frames).reach
    · exact hm' hreach
    · change m' p = s.world.memory p
      rw [hframe p (fun hout => hreach (Ports.outputs_subset_reach hout))]
      apply h.memory
      intro k q hk
      by_cases hkh : k = handle
      · subst hkh
        rw [hr] at hk
        cases hk
        exact fun hout => hreach (Ports.outputs_subset_reach hout)
      · apply hp k q
        exact (place_running ..).trans ((if_neg hkh).trans hk)
  case live =>
    intro k q hk
    obtain ⟨hne, hk⟩ := hother k q hk
    change (w.put handle _).heap k = _
    rw [World.put_heap, if_neg hne]
    exact h.live k q hk
  case outcome =>
    intro k q hk
    obtain ⟨hne, hk⟩ := hother k q hk
    -- what the run has written is out of reach for the others
    refine h.outcome_congr hk ?_ (Set.eqOn_refl _ _)
    intro p hp
    exact hframe p (Set.disjoint_right.mp (h.apart handle k _ q (Ne.symm hne) hr hk) hp)
  case apart =>
    intro k k' q q' hne hk hk'
    exact h.apart k k' q q' hne (hother k q hk).2 (hother k' q' hk').2

/-- **Step lemma**: the host with one thread makes the calls that return. -/
theorem Refines.step (h : s.Refines w) {a : Move α} (hrespects : s.Respects a)
    (hstep : s.step a = some t) :
    ∃ w', Transition.run World.step w (s.returned a) = some w' ∧ t.Refines w' := by
  cases a with
  | call c =>
    obtain ⟨hrun, hserial, v, hv, rfl⟩ := callStep_eq_some hstep
    by_cases hwrite : ∀ ptr value, c ≠ .write ptr value
    · obtain ⟨w', hw', hR⟩ := h.call hserial hv hrun hwrite
      exact ⟨w', Transition.run_cons_eq_some.mpr ⟨w', hw', rfl⟩, hR⟩
    · push Not at hwrite
      obtain ⟨ptr, value, rfl⟩ := hwrite
      cases hv
      exact ⟨_, rfl, h.write hrespects⟩
  | enter handle n =>
    obtain ⟨hidle, inst, hlive, rfl⟩ := enterStep_eq_some hstep
    exact ⟨w, rfl, h.enter hidle hlive hrespects⟩
  | operate handle =>
    obtain ⟨r, rest, memory, hr, hnext, rfl⟩ := operateStep_eq_some hstep
    exact ⟨w, rfl, h.operate hr hnext⟩
  | leave handle =>
    obtain ⟨inst, frames, plugin, hr, rfl⟩ := leaveStep_eq_some hstep
    obtain ⟨w', hw', hR⟩ := h.leave hr
    refine ⟨w', ?_, hR⟩
    simp only [returned, hr]
    exact Transition.run_cons_eq_some.mpr ⟨w', hw', rfl⟩

/-- **Run lemma**: behind every list of moves there is the world of a host with one thread. -/
theorem Refines.of_run {w : World P} {as : List (Move α)}
    (hrun : Transition.run Threads.step (idle w) as = some s)
    (hrespects : EachStep Threads.step (fun s a _ => s.Respects a) (idle w) as) :
    ∃ w', Transition.run World.step w (along Threads.step returned (idle w) as) = some w' ∧
      s.Refines w' :=
  hrespects.simulation (R := Refines)
    (fun _ _ _ _ h hC hstep => h.step hC hstep) hrun (.start w)

/-- **Concurrent hosts serialise.** Whatever the threads do from an idle world, with no run
writing what another one in progress reaches, a host with one thread can make the calls that
return in the order in which they return. It finds the same instances and the same log, and
the same memory outside the outputs of the runs still in progress; each of these has a whole
run before it there that comes to the same end as what is left of it. -/
theorem serialises {w : World P} {as : List (Move α)} {s : Threads P}
    (hrun : Transition.run step (idle w) as = some s)
    (hrespects : EachStep step (fun s a _ => s.Respects a) (idle w) as) :
    ∃ w', Transition.run World.step w (along step returned (idle w) as) = some w' ∧
      s.world.heap = w'.heap ∧ s.world.log = w'.log ∧
      Set.EqOn w'.memory s.world.memory s.untouched ∧
      ((∀ handle, s.running handle = none) → s.world = w') ∧
      ∀ handle r, s.running handle = some r → w'.heap handle = some r.inst ∧
        Agree r.ports.reach (r.whole.exec r.ports w'.memory)
          (r.rest.exec r.ports s.world.memory) := by
  obtain ⟨w', hw', hR⟩ := Refines.of_run hrun hrespects
  exact ⟨w', hw', hR.heap, hR.log, hR.memory, hR.eq_of_idle,
    fun handle r hr => ⟨hR.live handle r hr, hR.outcome handle r hr⟩⟩

-- ════════════════════════════════════════════════════════════════════════
-- A host with one thread is one of them
-- ════════════════════════════════════════════════════════════════════════

/-- A run that returns does so by its own operations. -/
theorem operate_all {r : InRun P} {plugin : σ} {memory : Memory α}
    (hr : s.running handle = some r)
    (hexec : r.rest.exec r.ports s.world.memory = .ok (plugin, memory)) :
    ∃ n t, Transition.run step s (List.replicate n (.operate handle)) = some t ∧
      t.world = { s.world with memory := memory } ∧
      t.running handle = some { r with rest := .done plugin } ∧
      ∀ k, k ≠ handle → t.running k = s.running k := by
  obtain ⟨inst, frames, rest⟩ := r
  change rest.exec (inst.ports frames) s.world.memory = _ at hexec
  induction rest generalizing s with
  | done plugin' =>
    cases hexec
    exact ⟨0, s, rfl, rfl, hr, fun _ _ => rfl⟩
  | fail panic => cases hexec
  | op o next ih =>
    obtain ⟨effect, hresolve, hnext⟩ := Prog.exec_op_eq_ok.mp hexec
    let u : Threads P :=
      { s.place handle (some ⟨inst, frames, next (effect.apply s.world.memory).1⟩) with
        world := { s.world with memory := (effect.apply s.world.memory).2 } }
    have hstep : s.step (.operate handle) = some u := by
      rw [step, operateStep, hr]
      change ((Prog.op o next).next (inst.ports frames) s.world.memory).map _ = _
      rw [Prog.next, hresolve]
      rfl
    have hu : u.running handle = some ⟨inst, frames, next (effect.apply s.world.memory).1⟩ :=
      (place_running ..).trans (if_pos rfl)
    obtain ⟨n, t, hn, hworld, hrunning, hother⟩ := ih _ hu hnext
    refine ⟨n + 1, t, ?_, hworld, hrunning, ?_⟩
    · rw [List.replicate_succ]
      exact Transition.run_cons_eq_some.mpr ⟨u, hstep, hn⟩
    · intro k hk
      rw [hother k hk]
      exact (place_running ..).trans (if_neg hk)

/-- Nothing but a run or a write is held against a host with an idle world. -/
theorem respects_of_idle (w : World P) (a : Move α) : (idle w).Respects a := by
  cases a with
  | call c =>
    cases c with
    | write ptr value =>
      rintro k r ⟨⟩
    | _ => trivial
  | enter handle n =>
    rintro inst - k r ⟨⟩
  | operate handle => trivial
  | leave handle => trivial

theorem along_operate (s : Threads P) (handle : Handle) (n : ℕ) :
    along step returned s (List.replicate n (.operate handle)) = [] := by
  induction n generalizing s with
  | zero => rfl
  | succ n ih =>
    rw [List.replicate_succ, along]
    cases s.step (.operate handle) with
    | none => rfl
    | some t => exact ih t

/-- The moves of one call on a host with one thread. -/
theorem serial_call {w w' : World P} {c : Call α} (h : w.step c = some w') :
    ∃ as, Transition.run step (idle w) as = some (idle w') ∧
      along step returned (idle w) as = [c] ∧
      EachStep step (fun s a _ => s.Respects a) (idle w) as := by
  by_cases hrun : ∀ handle n, c ≠ .run handle n
  · have hnone : c.handle?.bind (idle w).running = none := Option.bind_fun_none _
    have hstep : (idle w).step (.call c) = some (idle w') := by
      rw [step, callStep_of_ne_run hrun, hnone, if_pos Option.isNone_none]
      change (w.step c).map _ = _
      rw [h]
      rfl
    refine ⟨[.call c], Transition.run_cons_eq_some.mpr ⟨_, hstep, rfl⟩, ?_, ?_⟩
    · rw [Transition.along_cons_of_step hstep]
      rfl
    · exact .cons hstep (respects_of_idle w _) (.nil _)
  · push Not at hrun
    obtain ⟨handle, n, rfl⟩ := hrun
    obtain ⟨inst, plugin, memory, hlive, hexec, rfl⟩ := World.step_run_eq_some h
    let u : Threads P := (idle w).place handle (some ⟨inst, n, P.run inst.plugin n⟩)
    have henter : (idle w).step (.enter handle n) = some u := enterStep_of_live rfl hlive
    have hu : u.running handle = some ⟨inst, n, P.run inst.plugin n⟩ :=
      (place_running ..).trans (if_pos rfl)
    obtain ⟨k, t, hk, hworld, hrunning, hother⟩ := operate_all hu hexec
    have hleave : t.step (.leave handle) = some (idle
        { (w.put handle (some { inst with plugin := plugin })).record handle
          (.run n (inst.ports n)) with memory := memory }) := by
      rw [step, leaveStep, hrunning, hworld]
      refine congrArg some (congrArg (Threads.mk _) ?_)
      funext h
      by_cases hh : h = handle
      · rw [hh]
        exact Function.update_self ..
      · refine (Function.update_of_ne hh ..).trans ((hother h hh).trans ?_)
        exact (place_running ..).trans (if_neg hh)
    refine ⟨.enter handle n :: (List.replicate k (.operate handle) ++ [.leave handle]), ?_, ?_, ?_⟩
    · exact Transition.run_cons_eq_some.mpr ⟨u, henter, Transition.run_append_eq_some.mpr
        ⟨t, hk, Transition.run_cons_eq_some.mpr ⟨_, hleave, rfl⟩⟩⟩
    · rw [Transition.along_cons_of_step henter, Transition.along_append hk, along_operate,
        Transition.along_cons_of_step hleave, returned, returned, hrunning]
      rfl
    · refine .cons henter (respects_of_idle w _) (.append ?_ hk (.cons hleave trivial (.nil _)))
      refine EachStep.of_invariant (I := fun _ => True) (fun _ _ _ _ _ _ => trivial) ?_ trivial
      intro s a t ha _ _
      rw [List.eq_of_mem_replicate ha]
      trivial

/-- **Concurrency adds nothing.** The traces that come back from an idle host to an idle one
are, call by call in the order of their returns, the traces of a host with one thread. -/
theorem serial_iff {w w' : World P} {cs : List (Call α)} :
    (∃ as, Transition.run step (idle w) as = some (idle w') ∧
      along step returned (idle w) as = cs ∧
      EachStep step (fun s a _ => s.Respects a) (idle w) as) ↔
    Transition.run World.step w cs = some w' := by
  constructor
  · rintro ⟨as, hrun, rfl, hrespects⟩
    obtain ⟨v, hv, hR⟩ := Refines.of_run hrun hrespects
    rw [hv]
    exact congrArg some (hR.eq_of_idle fun _ => rfl).symm
  · intro hrun
    induction cs generalizing w with
    | nil =>
      cases hrun
      exact ⟨[], rfl, rfl, .nil _⟩
    | cons c cs ih =>
      obtain ⟨v, hv, hrest⟩ := Transition.run_cons_eq_some.mp hrun
      obtain ⟨as, has, hreturned, hrespects⟩ := serial_call hv
      obtain ⟨bs, hbs, hreturned', hrespects'⟩ := ih hrest
      refine ⟨as ++ bs, Transition.run_append_eq_some.mpr ⟨_, has, hbs⟩, ?_,
        hrespects.append has hrespects'⟩
      rw [Transition.along_append has, hreturned, hreturned']
      rfl

end Threads

end Entry
