import TympanLadspa.Entry.Threads
import TympanLadspa.Foundations.Commuting

/-!
# Schedules of a cycle

In one cycle a host runs its instances on as many threads as it likes. When no run of the
cycle writes what a run of another instance reaches, the schedule does not matter: not the
order of the runs of different instances, and not how their operations are interleaved.
-/

namespace Entry

open Port (Ptr Memory Ports Prog Agree)
open Transition (EachStep along)

variable {α σ : Type} {P : Plugin α σ}

namespace World

/-- One run, on a host with one thread. -/
def runStep (w : World P) (r : Handle × ℕ) : Option (World P) := w.step (.run r.1 r.2)

/-- The same instances are bound to the same buffers. -/
def SameBindings (v w : World P) : Prop :=
  ∀ handle, (w.heap handle).map Instance.portPtrs = (v.heap handle).map Instance.portPtrs

/-- A run writes nothing that another one reaches. -/
def Spares (w : World P) (r q : Handle × ℕ) : Prop :=
  ∀ inst inst', w.heap r.1 = some inst → w.heap q.1 = some inst' →
    Disjoint (inst.ports r.2).outputs (inst'.ports q.2).reach

/-- Runs of different instances spare each other. -/
def Independent (w : World P) (rs : List (Handle × ℕ)) : Prop :=
  ∀ r ∈ rs, ∀ q ∈ rs, r.1 ≠ q.1 → w.Spares r q

/-- The same instances and the same memory, and each instance has been called the same way. -/
structure Same (w w' : World P) : Prop where
  heap : w.heap = w'.heap
  memory : w.memory = w'.memory
  log : ∀ handle, w.log.filter (fun e => e.1 = handle) = w'.log.filter fun e => e.1 = handle

theorem Same.refl (w : World P) : w.Same w := ⟨rfl, rfl, fun _ => rfl⟩

theorem Same.trans {u v w : World P} (h : u.Same v) (h' : v.Same w) : u.Same w where
  heap := h.heap.trans h'.heap
  memory := h.memory.trans h'.memory
  log := fun handle => (h.log handle).trans (h'.log handle)

theorem SameBindings.ports {v w : World P} (h : v.SameBindings w) {handle : Handle}
    {inst : Instance P} (hlive : w.heap handle = some inst) :
    ∃ inst₀, v.heap handle = some inst₀ ∧ inst₀.portPtrs = inst.portPtrs := by
  have heq := h handle
  rw [hlive] at heq
  exact Option.map_eq_some_iff.mp heq.symm

theorem Spares.of_bindings {v w : World P} (h : v.SameBindings w) {r q : Handle × ℕ}
    (hspares : v.Spares r q) : w.Spares r q := by
  intro inst inst' hlive hlive'
  obtain ⟨inst₀, hlive₀, hptrs⟩ := h.ports hlive
  obtain ⟨inst₀', hlive₀', hptrs'⟩ := h.ports hlive'
  have hdisjoint := hspares inst₀ inst₀' hlive₀ hlive₀'
  rwa [Instance.ports, Instance.ports, hptrs, hptrs'] at hdisjoint

/-- What a run that returns does. -/
theorem runStep_eq_some {w w' : World P} {r : Handle × ℕ} (h : w.runStep r = some w') :
    ∃ inst plugin memory, w.heap r.1 = some inst ∧
      (P.run inst.plugin r.2).exec (inst.ports r.2) w.memory = .ok (plugin, memory) ∧
      w' = { (w.put r.1 (some { inst with plugin := plugin })).record r.1
              (.run r.2 (inst.ports r.2)) with memory := memory } :=
  step_run_eq_some h

theorem runStep_of_exec {w : World P} {r : Handle × ℕ} {inst : Instance P} {plugin : σ}
    {memory : Memory α} (hlive : w.heap r.1 = some inst)
    (hexec : (P.run inst.plugin r.2).exec (inst.ports r.2) w.memory = .ok (plugin, memory)) :
    w.runStep r = some
      { (w.put r.1 (some { inst with plugin := plugin })).record r.1
          (.run r.2 (inst.ports r.2)) with memory := memory } := by
  apply step_of_run hlive
  rw [Instance.run, hexec]

/-- A new state of the plugin leaves the bindings alone. -/
theorem SameBindings.put {v w : World P} (h : v.SameBindings w) {handle : Handle}
    {inst : Instance P} (hlive : w.heap handle = some inst) (plugin : σ) :
    v.SameBindings (w.put handle (some { inst with plugin := plugin })) := by
  intro k
  rw [put_heap]
  by_cases hk : k = handle
  · rw [if_pos hk, hk, ← h handle, hlive]
    rfl
  · rw [if_neg hk]
    exact h k

/-- **Two runs in either order**: runs that spare each other commute. -/
theorem runStep_swap {w u v : World P} {r q : Handle × ℕ} (hne : r.1 ≠ q.1)
    (hrq : w.Spares r q) (hqr : w.Spares q r) (hr : w.runStep r = some u)
    (hq : u.runStep q = some v) :
    ∃ u' v', w.runStep q = some u' ∧ u'.runStep r = some v' ∧ v.Same v' := by
  obtain ⟨inst, plugin, m, hlive, hexec, rfl⟩ := runStep_eq_some hr
  obtain ⟨inst', plugin', m', hlive', hexec', rfl⟩ := runStep_eq_some hq
  have hlive₀' : w.heap q.1 = some inst' := by
    change (w.put r.1 _).heap q.1 = _ at hlive'
    rwa [put_heap, if_neg (Ne.symm hne)] at hlive'
  have hr_out := hrq inst inst' hlive hlive₀'
  have hq_out := hqr inst' inst hlive₀' hlive
  -- `q` first: it does not see what `r` has written
  have hsee : Set.EqOn w.memory m (inst'.ports q.2).reach := by
    intro p hp
    exact (Prog.exec_frame hexec (Set.disjoint_right.mp hr_out hp)).symm
  have hagree' := Prog.exec_agree (P.run inst'.plugin q.2) hsee
  rw [hexec'] at hagree'
  obtain ⟨n', hn', heq'⟩ := hagree'.eq_ok
  -- and then `r`
  have hsee' : Set.EqOn n' w.memory (inst.ports r.2).reach := by
    intro p hp
    exact Prog.exec_frame hn' (Set.disjoint_right.mp hq_out hp)
  have hagree := Prog.exec_agree (P.run inst.plugin r.2) hsee'
  rw [hexec] at hagree
  obtain ⟨n, hn, heq⟩ := hagree.eq_ok
  have hlive₁ : (w.put q.1 (some { inst' with plugin := plugin' })).heap r.1 = some inst := by
    rw [put_heap, if_neg hne]
    exact hlive
  refine ⟨_, _, runStep_of_exec hlive₀' hn', runStep_of_exec hlive₁ hn, ?_, ?_, ?_⟩
  · exact Function.update_comm hne _ _ _
  · change m' = n
    funext p
    by_cases hp : p ∈ (inst.ports r.2).reach
    · rw [heq hp, Prog.exec_frame hexec' (Set.disjoint_right.mp hq_out hp)]
    · rw [Prog.exec_frame hn (fun hout => hp (Ports.outputs_subset_reach hout))]
      by_cases hp' : p ∈ (inst'.ports q.2).reach
      · exact (heq' hp').symm
      · have hm' : m' p = m p :=
          Prog.exec_frame hexec' (fun hout => hp' (Ports.outputs_subset_reach hout))
        have hm : m p = w.memory p :=
          Prog.exec_frame hexec (fun hout => hp (Ports.outputs_subset_reach hout))
        have hn : n' p = w.memory p :=
          Prog.exec_frame hn' (fun hout => hp' (Ports.outputs_subset_reach hout))
        rw [hm', hm, hn]
  · intro handle
    change ((w.log ++ _) ++ _).filter _ = ((w.log ++ _) ++ _).filter _
    simp only [List.filter_append]
    by_cases hr : r.1 = handle
    · have hq : q.1 ≠ handle := fun h => hne (hr.trans h.symm)
      simp [hr, hq]
    · simp [hr]

/-- Runs that spare each other can be taken in any order. -/
theorem commutes {w : World P} {rs : List (Handle × ℕ)} (h : w.Independent rs) :
    Transition.Commutes runStep Prod.fst (fun r => r ∈ rs) (SameBindings w) (Same (P := P)) where
  keeps := by
    intro v u r hv _ hstep
    obtain ⟨inst, plugin, m, hlive, -, rfl⟩ := runStep_eq_some hstep
    exact hv.put hlive plugin
  refl := .refl
  trans := .trans
  congr := by
    intro v v' u r hsame hstep
    obtain ⟨inst, plugin, m, hlive, hexec, rfl⟩ := runStep_eq_some hstep
    refine ⟨_, runStep_of_exec (hsame.heap ▸ hlive) (hsame.memory ▸ hexec), ?_, rfl, ?_⟩
    · change Function.update v.heap r.1 _ = Function.update v'.heap r.1 _
      rw [hsame.heap]
    · intro handle
      change (v.log ++ _).filter _ = (v'.log ++ _).filter _
      rw [List.filter_append, List.filter_append, hsame.log handle]
  swap := by
    intro v u x r q hv hr hq hne hstep hstep'
    exact runStep_swap hne ((h r hr q hq hne).of_bindings hv)
      ((h q hq r hr (Ne.symm hne)).of_bindings hv) hstep hstep'

/-- A trace of runs only. -/
theorem run_map_run (w : World P) (rs : List (Handle × ℕ)) :
    Transition.run World.step w (rs.map fun r => .run r.1 r.2) = Transition.run runStep w rs := by
  induction rs generalizing w with
  | nil => rfl
  | cons r rs ih =>
    rw [List.map_cons, Transition.run_cons, Transition.run_cons]
    apply congrArg (Option.bind _)
    funext v
    exact ih v

end World

/-- The runs a move begins. -/
def Move.begins : Move α → List (Handle × ℕ)
  | .enter handle sampleCount => [(handle, sampleCount)]
  | .call _ | .operate _ | .leave _ => []

/-- A move of a run. -/
def Move.OfRun (a : Move α) : Prop := ∀ c, a ≠ .call c

namespace Threads

variable {s t : Threads P} {w : World P} {as bs : List (Move α)}

/-- The run of an instance in progress, if there is one. -/
def pending (s : Threads P) (handle : Handle) : List (Handle × ℕ) :=
  (s.running handle).toList.map fun r => (handle, r.frames)

/-- The runs a step ends. -/
def ended (s : Threads P) : Move α → List (Handle × ℕ)
  | .leave handle => s.pending handle
  | .call _ | .enter _ _ | .operate _ => []

theorem returned_eq_map {a : Move α} (ha : a.OfRun) :
    s.returned a = (s.ended a).map fun r => .run r.1 r.2 := by
  cases a with
  | call c => exact absurd rfl (ha c)
  | enter handle n => rfl
  | operate handle => rfl
  | leave handle =>
    rw [returned, ended, pending]
    cases s.running handle <;> rfl

theorem along_returned (hrun : Transition.run step s as = some t) (has : ∀ a ∈ as, a.OfRun) :
    along step returned s as = (along step ended s as).map fun r => .run r.1 r.2 := by
  induction as generalizing s with
  | nil => rfl
  | cons a as ih =>
    obtain ⟨u, hu, hrest⟩ := Transition.run_cons_eq_some.mp hrun
    rw [Transition.along_cons_of_step hu, Transition.along_cons_of_step hu, List.map_append,
      returned_eq_map (has a List.mem_cons_self),
      ih hrest (fun b hb => has b (List.mem_cons_of_mem a hb))]

/-- One step, seen at a handle: a run that was in progress or begins is over or in progress. -/
theorem pending_step {a : Move α} (ha : a.OfRun) (h : s.step a = some t) (handle : Handle) :
    s.pending handle ++ a.begins.filter (fun r => r.1 = handle) =
      (s.ended a).filter (fun r => r.1 = handle) ++ t.pending handle := by
  cases a with
  | call c => exact absurd rfl (ha c)
  | enter k n =>
    obtain ⟨hidle, inst, hlive, rfl⟩ := enterStep_eq_some h
    rw [pending, pending, place_running]
    by_cases hk : k = handle
    · subst hk
      simp [Move.begins, ended, hidle]
    · simp [Move.begins, ended, hk, Ne.symm hk]
  | operate k =>
    obtain ⟨r, rest, memory, hr, hnext, rfl⟩ := operateStep_eq_some h
    rw [pending, pending]
    change _ = _ ++ ((s.place k _).running handle).toList.map _
    rw [place_running]
    by_cases hk : handle = k
    · subst hk
      simp [Move.begins, ended, hr]
    · simp [Move.begins, ended, hk]
  | leave k =>
    obtain ⟨inst, frames, plugin, hr, rfl⟩ := leaveStep_eq_some h
    rw [pending, pending]
    change _ = _ ++ ((s.place k _).running handle).toList.map _
    rw [place_running]
    by_cases hk : handle = k
    · subst hk
      simp [Move.begins, ended, pending, hr]
    · simp [Move.begins, ended, pending, hr, hk, Ne.symm hk]

/-- **The runs of one instance end in the order in which they begin.** -/
theorem pending_run (hrun : Transition.run step s as = some t) (has : ∀ a ∈ as, a.OfRun)
    (handle : Handle) :
    s.pending handle ++ (as.flatMap Move.begins).filter (fun r => r.1 = handle) =
      (along step ended s as).filter (fun r => r.1 = handle) ++ t.pending handle := by
  induction as generalizing s with
  | nil =>
    cases hrun
    exact List.append_nil _
  | cons a as ih =>
    obtain ⟨u, hu, hrest⟩ := Transition.run_cons_eq_some.mp hrun
    have hstep := pending_step (has a List.mem_cons_self) hu handle
    have htail := ih hrest fun b hb => has b (List.mem_cons_of_mem a hb)
    rw [Transition.along_cons_of_step hu, List.flatMap_cons, List.filter_append,
      List.filter_append, ← List.append_assoc, hstep, List.append_assoc, htail,
      List.append_assoc]

theorem ended_of_idle (hrun : Transition.run step (idle w) as = some t)
    (has : ∀ a ∈ as, a.OfRun) (ht : ∀ handle, t.running handle = none) (handle : Handle) :
    (along step ended (idle w) as).filter (fun r => r.1 = handle) =
      (as.flatMap Move.begins).filter (fun r => r.1 = handle) := by
  have hpending := pending_run hrun has handle
  have hnil : t.pending handle = [] := by
    rw [pending, ht handle]
    rfl
  rw [hnil, List.append_nil] at hpending
  exact hpending.symm

/-- Only an instance of which a run begins can be in one afterwards. -/
theorem idle_of_begins (hrun : Transition.run step (idle w) as = some t)
    (has : ∀ a ∈ as, a.OfRun) (h : ∀ r ∈ as.flatMap Move.begins, t.running r.1 = none)
    (handle : Handle) : t.running handle = none := by
  by_cases hmem : ∃ r ∈ as.flatMap Move.begins, r.1 = handle
  · obtain ⟨r, hr, rfl⟩ := hmem
    exact h r hr
  · have hnil : (as.flatMap Move.begins).filter (fun r => r.1 = handle) = [] := by
      rw [List.filter_eq_nil_iff]
      intro r hr heq
      exact hmem ⟨r, hr, of_decide_eq_true heq⟩
    have hpending := pending_run hrun has handle
    rw [hnil] at hpending
    have hnone := (List.append_eq_nil_iff.mp hpending.symm).2
    rw [pending, List.map_eq_nil_iff, Option.toList_eq_nil_iff] at hnone
    exact hnone

/-- In a cycle the bindings stay, and a run in progress is one of those that begin in it. -/
structure InCycle (w : World P) (rs : List (Handle × ℕ)) (s : Threads P) : Prop where
  bindings : w.SameBindings s.world
  running : ∀ handle r, s.running handle = some r →
    (handle, r.frames) ∈ rs ∧ s.world.heap handle = some r.inst

theorem InCycle.step {rs : List (Handle × ℕ)} (h : InCycle w rs s) {a : Move α} (ha : a.OfRun)
    (hbegins : ∀ r ∈ a.begins, r ∈ rs) (hstep : s.step a = some t) : InCycle w rs t := by
  cases a with
  | call c => exact absurd rfl (ha c)
  | enter k n =>
    obtain ⟨hidle, inst, hlive, rfl⟩ := enterStep_eq_some hstep
    refine ⟨h.bindings, ?_⟩
    intro handle r hr
    rcases running_of_place hr with ⟨rfl, heq⟩ | ⟨-, hr⟩
    · cases heq
      exact ⟨hbegins _ List.mem_cons_self, hlive⟩
    · exact h.running handle r hr
  | operate k =>
    obtain ⟨r, rest, memory, hr, hnext, rfl⟩ := operateStep_eq_some hstep
    refine ⟨h.bindings, ?_⟩
    intro handle q hq
    rcases running_of_place hq with ⟨rfl, heq⟩ | ⟨-, hq⟩
    · cases heq
      exact h.running handle r hr
    · exact h.running handle q hq
  | leave k =>
    obtain ⟨inst, frames, plugin, hr, rfl⟩ := leaveStep_eq_some hstep
    refine ⟨h.bindings.put (h.running k _ hr).2 plugin, ?_⟩
    intro handle q hq
    rcases running_of_place hq with ⟨-, heq⟩ | ⟨hne, hq⟩
    · cases heq
    · refine ⟨(h.running handle q hq).1, ?_⟩
      change (s.world.put k _).heap handle = _
      rw [World.put_heap, if_neg hne]
      exact (h.running handle q hq).2

/-- A run that begins in a cycle of independent runs spares those in progress, and they it. -/
theorem InCycle.respects {rs : List (Handle × ℕ)} (hind : w.Independent rs)
    (h : InCycle w rs s) {a : Move α} (ha : a.OfRun) (hbegins : ∀ r ∈ a.begins, r ∈ rs)
    (hstep : s.step a = some t) : s.Respects a := by
  cases a with
  | call c => exact absurd rfl (ha c)
  | operate k => trivial
  | leave k => trivial
  | enter handle n =>
    obtain ⟨hidle, -⟩ := enterStep_eq_some hstep
    intro inst hlive k r hr
    obtain ⟨hr_mem, hr_live⟩ := h.running k r hr
    have hmem : (handle, n) ∈ rs := hbegins _ List.mem_cons_self
    have hne : handle ≠ k := by
      rintro rfl
      rw [hidle] at hr
      cases hr
    constructor
    · exact (hind _ hmem _ hr_mem hne).of_bindings h.bindings inst r.inst hlive hr_live
    · exact (hind _ hr_mem _ hmem (Ne.symm hne)).of_bindings h.bindings r.inst inst hr_live hlive

theorem cycle_respects (has : ∀ a ∈ as, a.OfRun)
    (hind : w.Independent (as.flatMap Move.begins)) :
    EachStep step (fun s a _ => s.Respects a) (idle w) as := by
  have hbegins : ∀ a ∈ as, ∀ r ∈ a.begins, r ∈ as.flatMap Move.begins :=
    fun a ha r hr => List.mem_flatMap.mpr ⟨a, ha, hr⟩
  have hstart : InCycle w (as.flatMap Move.begins) (idle w) :=
    ⟨fun _ => rfl, by rintro handle r ⟨⟩⟩
  refine EachStep.of_invariant (I := InCycle w (as.flatMap Move.begins)) ?_ ?_ hstart
  · intro u a v ha hu hstep
    exact hu.step (has a ha) (hbegins a ha) hstep
  · intro u a v ha hu hstep
    exact hu.respects hind (has a ha) (hbegins a ha) hstep

/-- A cycle of independent runs is one on a single thread. -/
theorem cycle_serial (hrun : Transition.run step (idle w) as = some t)
    (has : ∀ a ∈ as, a.OfRun) (ht : ∀ handle, t.running handle = none)
    (hind : w.Independent (as.flatMap Move.begins)) :
    Transition.run World.runStep w (along step ended (idle w) as) = some t.world := by
  obtain ⟨w', hw', hR⟩ := Refines.of_run hrun (cycle_respects has hind)
  rw [along_returned hrun has, World.run_map_run] at hw'
  rw [hw', hR.eq_of_idle ht]

/-- **The schedule of a cycle is free.** Two ways of making the same runs on any number of
threads, each from the same idle world to one where all have returned, the runs of each
instance in the same order, end with the same instances, the same memory and the same calls
on each instance, if no run writes what a run of another instance reaches. -/
theorem schedules_agree (has : Transition.run step (idle w) as = some s)
    (hbs : Transition.run step (idle w) bs = some t)
    (hasRun : ∀ a ∈ as, a.OfRun) (hbsRun : ∀ b ∈ bs, b.OfRun)
    (hs : ∀ handle, s.running handle = none) (ht : ∀ handle, t.running handle = none)
    (hsame : ∀ handle, (as.flatMap Move.begins).filter (fun r => r.1 = handle) =
      (bs.flatMap Move.begins).filter fun r => r.1 = handle)
    (hind : w.Independent (as.flatMap Move.begins)) :
    s.world.heap = t.world.heap ∧ s.world.memory = t.world.memory ∧
      ∀ handle, s.world.log.filter (fun e => e.1 = handle) =
        t.world.log.filter fun e => e.1 = handle := by
  have hmem : ∀ r, r ∈ bs.flatMap Move.begins → r ∈ as.flatMap Move.begins := by
    intro r hr
    have hfilter : r ∈ (bs.flatMap Move.begins).filter fun q => q.1 = r.1 :=
      List.mem_filter.mpr ⟨hr, decide_eq_true rfl⟩
    rw [← hsame r.1] at hfilter
    exact (List.mem_filter.mp hfilter).1
  have hindbs : w.Independent (bs.flatMap Move.begins) :=
    fun r hr q hq hne => hind r (hmem r hr) q (hmem q hq) hne
  have hserial := cycle_serial has hasRun hs hind
  have hserial' := cycle_serial hbs hbsRun ht hindbs
  have hended : ∀ r ∈ along step ended (idle w) as, r ∈ as.flatMap Move.begins := by
    intro r hr
    have hfilter : r ∈ (along step ended (idle w) as).filter fun q => q.1 = r.1 :=
      List.mem_filter.mpr ⟨hr, decide_eq_true rfl⟩
    rw [ended_of_idle has hasRun hs r.1] at hfilter
    exact (List.mem_filter.mp hfilter).1
  have hfilter : ∀ handle, (along step ended (idle w) as).filter (fun r => r.1 = handle) =
      (along step ended (idle w) bs).filter fun r => r.1 = handle := by
    intro handle
    rw [ended_of_idle has hasRun hs, hsame, ended_of_idle hbs hbsRun ht]
  obtain ⟨t', ht', hsame'⟩ :=
    (World.commutes hind).run_of_filter_eq (fun _ => rfl) hended hfilter hserial
  obtain rfl := Option.some.inj (hserial'.symm.trans ht')
  exact ⟨hsame'.heap, hsame'.memory, hsame'.log⟩

end Threads

/-- Two instances of the gain plugin on buffers of their own. -/
def duo : World (Gain.plugin : Plugin ℕ Unit) where
  heap := fun handle =>
    if handle = 1 then some ⟨(), [10, 20, 30], rfl⟩
    else if handle = 2 then some ⟨(), [40, 50, 60], rfl⟩
    else none
  memory := fun ptr => ptr
  log := []

theorem duo_independent : duo.Independent [(1, 2), (2, 1)] := by
  have hspares : ∀ r q : Handle × ℕ, r = (1, 2) ∧ q = (2, 1) ∨ r = (2, 1) ∧ q = (1, 2) →
      duo.Spares r q := by
    rintro r q (⟨rfl, rfl⟩ | ⟨rfl, rfl⟩) inst inst' hlive hlive'
    all_goals
      cases hlive
      cases hlive'
      apply Ports.disjoint_of_cellsOf
      decide
  intro r hr q hq hne
  rcases List.mem_pair.mp hr with rfl | rfl <;> rcases List.mem_pair.mp hq with rfl | rfl
  · exact absurd rfl hne
  · exact hspares _ _ (.inl ⟨rfl, rfl⟩)
  · exact hspares _ _ (.inr ⟨rfl, rfl⟩)
  · exact absurd rfl hne

/-- The two instances in turns. -/
def inTurns : List (Move ℕ) :=
  [.enter 1 2, .enter 2 1, .operate 1, .operate 2, .operate 2, .operate 1, .operate 1, .operate 2,
    .operate 2, .operate 1, .operate 1, .leave 2, .operate 1, .leave 1]

/-- One after the other. -/
def inOrder : List (Move ℕ) :=
  [.enter 2 1, .operate 2, .operate 2, .operate 2, .operate 2, .leave 2, .enter 1 2, .operate 1,
    .operate 1, .operate 1, .operate 1, .operate 1, .operate 1, .leave 1]

/-- A list of moves of runs behind which the two instances are not in a run. -/
theorem idle_of_duo {as : List (Move ℕ)} {s : Threads Gain.plugin}
    (hrun : Transition.run Threads.step (.idle duo) as = some s) (has : ∀ a ∈ as, a.OfRun)
    (hbegins : ∀ r ∈ as.flatMap Move.begins, r = (1, 2) ∨ r = (2, 1))
    (hone : (Transition.run Threads.step (.idle duo) as).map (fun t => t.running 1) = some none)
    (htwo : (Transition.run Threads.step (.idle duo) as).map (fun t => t.running 2) = some none) :
    ∀ handle, s.running handle = none := by
  apply Threads.idle_of_begins hrun has
  intro r hr
  rw [hrun] at hone htwo
  rcases hbegins r hr with rfl | rfl
  · exact Option.some.inj hone
  · exact Option.some.inj htwo

theorem inTurns_ofRun : ∀ a ∈ inTurns, a.OfRun := by
  rintro a ha c rfl
  simp [inTurns] at ha

theorem schedules_agree_duo : ∃ s t : Threads Gain.plugin,
    Transition.run Threads.step (.idle duo) inTurns = some s ∧
      Transition.run Threads.step (.idle duo) inOrder = some t ∧ s.world.memory 21 = 11 * 30 ∧
      s.world.heap = t.world.heap ∧ s.world.memory = t.world.memory ∧
      ∀ handle, s.world.log.filter (fun e => e.1 = handle) =
        t.world.log.filter fun e => e.1 = handle := by
  have horder : ∀ a ∈ inOrder, a.OfRun := by
    rintro a ha c rfl
    simp [inOrder] at ha
  have hsame : ∀ handle, (inTurns.flatMap Move.begins).filter (fun r => r.1 = handle) =
      (inOrder.flatMap Move.begins).filter fun r => r.1 = handle := by
    intro handle
    change [(1, 2), (2, 1)].filter _ = [(2, 1), (1, 2)].filter _
    by_cases h : 1 = handle
    · subst h
      rfl
    · by_cases h' : 2 = handle <;> simp [h, h']
  obtain ⟨s, hs⟩ : ∃ s, Transition.run Threads.step (.idle duo) inTurns = some s := ⟨_, rfl⟩
  obtain ⟨t, ht⟩ : ∃ t, Transition.run Threads.step (.idle duo) inOrder = some t := ⟨_, rfl⟩
  have hidle := idle_of_duo hs inTurns_ofRun (fun r hr => List.mem_pair.mp hr) rfl rfl
  have hidle' := idle_of_duo ht horder (fun r hr => (List.mem_pair.mp hr).symm) rfl rfl
  have hvalue : (Transition.run Threads.step (.idle duo) inTurns).map
      (fun u => u.world.memory 21) = some (11 * 30) := rfl
  rw [hs] at hvalue
  exact ⟨s, t, hs, ht, Option.some.inj hvalue,
    Threads.schedules_agree hs ht inTurns_ofRun horder hidle hidle' hsame duo_independent⟩

/-- The two instances in turns, and a host with one thread. -/
theorem serialises_duo : ∃ (s : Threads Gain.plugin) (w : World Gain.plugin),
    Transition.run Threads.step (.idle duo) inTurns = some s ∧
      Transition.run World.step duo [.run 2 1, .run 1 2] = some w ∧
      s.world.heap = w.heap ∧ s.world.log = w.log ∧
      Set.EqOn w.memory s.world.memory s.untouched ∧
      ((∀ handle, s.running handle = none) → s.world = w) ∧
      ∀ handle r, s.running handle = some r → w.heap handle = some r.inst ∧
        Agree r.ports.reach (r.whole.exec r.ports w.memory)
          (r.rest.exec r.ports s.world.memory) := by
  obtain ⟨s, hs⟩ : ∃ s, Transition.run Threads.step (.idle duo) inTurns = some s := ⟨_, rfl⟩
  exact ⟨s, (Threads.serialises hs (Threads.cycle_respects inTurns_ofRun duo_independent)).imp
    fun w hw => ⟨hs, hw⟩⟩

end Entry
