import TympanLadspa.Foundations.Transition
import Mathlib.Algebra.Order.BigOperators.Group.Finset
import Mathlib.Data.Fintype.Basic

/-!
# Initialising once

A cell that threads share. The first one to find it empty runs an initialiser, step by step and
over a store that others use too; the rest wait. A value that is in the cell stays. An initialiser
that fails leaves the cell empty, and its thread does not come back from the call.
-/

/-- What fills a cell: the steps over the store, each with an answer from outside, the outcome
when there is one, and what a failure undoes. `beside` is what else happens to the store. -/
structure Initializer (E ι ω ρ η : Type*) where
  start : ι
  work : E → ι → ω → Option (E × ι)
  outcome : ι → Option (Option ρ)
  undo : E → ι → E
  beside : E → η → Option E

namespace Once

variable {T E ι ω ρ η : Type*}

inductive Cell (T ι ρ : Type*)
  | empty
  | busy (owner : T) (job : ι)
  | filled (value : ρ)

/-- Where a thread is: not in a call, in one, or on its way out of one that failed. -/
inductive Phase
  | outside
  | inside
  | unwinding
deriving DecidableEq

structure State (T E ι ρ : Type*) where
  store : E
  cell : Cell T ι ρ
  phase : T → Phase

inductive Move (T ω η : Type*)
  | enter (t : T)
  | claim (t : T)
  | work (t : T) (answer : ω)
  | finish (t : T)
  | fail (t : T)
  | leave (t : T)
  | beside (what : η)

/-- The thread of a move; none for what happens beside. -/
def Move.thread? : Move T ω η → Option T
  | .enter t | .claim t | .work t _ | .finish t | .fail t | .leave t => some t
  | .beside _ => none

variable [DecidableEq T]

def State.put (s : State T E ι ρ) (t : T) (phase : Phase) : State T E ι ρ :=
  { s with phase := Function.update s.phase t phase }

/-- One move. A thread that finds the cell busy with another has none. -/
def step (init : Initializer E ι ω ρ η) (s : State T E ι ρ) :
    Move T ω η → Option (State T E ι ρ)
  | .enter t => if s.phase t = .outside then some (s.put t .inside) else none
  | .claim t =>
    match s.cell with
    | .empty => if s.phase t = .inside then some { s with cell := .busy t init.start } else none
    | _ => none
  | .work t answer =>
    match s.cell with
    | .busy owner job =>
      if owner = t then
        (init.work s.store job answer).map fun (store, job') =>
          { s with store := store, cell := .busy t job' }
      else none
    | _ => none
  | .finish t =>
    match s.cell with
    | .busy owner job =>
      match init.outcome job with
      | some (some value) => if owner = t then some { s with cell := .filled value } else none
      | _ => none
    | _ => none
  | .fail t =>
    match s.cell with
    | .busy owner job =>
      match init.outcome job with
      | some none =>
        if owner = t then
          some { s.put t .unwinding with store := init.undo s.store job, cell := .empty }
        else none
      | _ => none
    | _ => none
  | .leave t =>
    match s.cell with
    | .filled _ => if s.phase t = .inside then some (s.put t .outside) else none
    | _ => none
  | .beside what => (init.beside s.store what).map fun store => { s with store := store }

-- ════════════════════════════════════════════════════════════════════════
-- What a move does
-- ════════════════════════════════════════════════════════════════════════

/-- The moves, one by one. -/
inductive Moves (init : Initializer E ι ω ρ η) (s : State T E ι ρ) :
    Move T ω η → State T E ι ρ → Prop
  | enter {t : T} (hphase : s.phase t = .outside) : Moves init s (.enter t) (s.put t .inside)
  | claim {t : T} (hcell : s.cell = .empty) (hphase : s.phase t = .inside) :
    Moves init s (.claim t) { s with cell := .busy t init.start }
  | work {t : T} {answer : ω} {job job' : ι} {store : E} (hcell : s.cell = .busy t job)
    (hwork : init.work s.store job answer = some (store, job')) :
    Moves init s (.work t answer) { s with store := store, cell := .busy t job' }
  | finish {t : T} {job : ι} {value : ρ} (hcell : s.cell = .busy t job)
    (houtcome : init.outcome job = some (some value)) :
    Moves init s (.finish t) { s with cell := .filled value }
  | fail {t : T} {job : ι} (hcell : s.cell = .busy t job)
    (houtcome : init.outcome job = some none) :
    Moves init s (.fail t)
      { s.put t .unwinding with store := init.undo s.store job, cell := .empty }
  | leave {t : T} {value : ρ} (hcell : s.cell = .filled value) (hphase : s.phase t = .inside) :
    Moves init s (.leave t) (s.put t .outside)
  | beside {what : η} {store : E} (hstore : init.beside s.store what = some store) :
    Moves init s (.beside what) { s with store := store }

variable {init : Initializer E ι ω ρ η} {s s' : State T E ι ρ} {m : Move T ω η}

theorem moves_of_step (h : step init s m = some s') : Moves init s m s' := by
  cases m with
  | enter t =>
    simp only [step, Option.ite_none_right_eq_some, Option.some.injEq] at h
    obtain ⟨hphase, rfl⟩ := h
    exact .enter hphase
  | claim t =>
    simp only [step] at h
    split at h
    · next hcell =>
      simp only [Option.ite_none_right_eq_some, Option.some.injEq] at h
      obtain ⟨hphase, rfl⟩ := h
      exact .claim hcell hphase
    · cases h
  | work t answer =>
    simp only [step] at h
    split at h
    · next owner job hcell =>
      simp only [Option.ite_none_right_eq_some, Option.map_eq_some_iff] at h
      obtain ⟨rfl, ⟨store, job'⟩, hwork, rfl⟩ := h
      exact .work hcell hwork
    · cases h
  | finish t =>
    simp only [step] at h
    split at h
    · next owner job hcell =>
      split at h
      · next value houtcome =>
        simp only [Option.ite_none_right_eq_some, Option.some.injEq] at h
        obtain ⟨rfl, rfl⟩ := h
        exact .finish hcell houtcome
      · cases h
    · cases h
  | fail t =>
    simp only [step] at h
    split at h
    · next owner job hcell =>
      split at h
      · next houtcome =>
        simp only [Option.ite_none_right_eq_some, Option.some.injEq] at h
        obtain ⟨rfl, rfl⟩ := h
        exact .fail hcell houtcome
      · cases h
    · cases h
  | leave t =>
    simp only [step] at h
    split at h
    · next value hcell =>
      simp only [Option.ite_none_right_eq_some, Option.some.injEq] at h
      obtain ⟨hphase, rfl⟩ := h
      exact .leave hcell hphase
    · cases h
  | beside what =>
    simp only [step, Option.map_eq_some_iff] at h
    obtain ⟨store, hstore, rfl⟩ := h
    exact .beside hstore

theorem Moves.step_eq (h : Moves init s m s') : step init s m = some s' := by
  cases h with
  | enter hphase => rw [step, if_pos hphase]
  | claim hcell hphase => simp only [step, hcell, if_pos hphase]
  | work hcell hwork => simp only [step, hcell, if_true, hwork, Option.map_some]
  | finish hcell houtcome => simp only [step, hcell, houtcome, if_true]
  | fail hcell houtcome => simp only [step, hcell, houtcome, if_true]
  | leave hcell hphase => simp only [step, hcell, if_pos hphase]
  | beside hstore => rw [step, hstore, Option.map_some]

/-- **A value stays**: what is in the cell is never replaced. -/
theorem Moves.filled {value : ρ} (h : Moves init s m s') (hcell : s.cell = .filled value) :
    s'.cell = .filled value := by
  cases h with
  | enter => exact hcell
  | claim hempty => rw [hempty] at hcell; cases hcell
  | work hbusy => rw [hbusy] at hcell; cases hcell
  | finish hbusy => rw [hbusy] at hcell; cases hcell
  | fail hbusy => rw [hbusy] at hcell; cases hcell
  | leave => exact hcell
  | beside => exact hcell

def Move.isFinish : Move T ω η → Bool
  | .finish _ => true
  | _ => false

/-- What is still to come: one value, until there is one. -/
def State.missing (s : State T E ι ρ) : ℕ :=
  match s.cell with
  | .filled _ => 0
  | _ => 1

theorem Moves.missing (h : Moves init s m s') :
    s.missing = s'.missing + if m.isFinish then 1 else 0 := by
  cases h with
  | claim hcell => simp only [State.missing, hcell, Move.isFinish]; rfl
  | work hcell => simp only [State.missing, hcell, Move.isFinish]; rfl
  | finish hcell => simp only [State.missing, hcell, Move.isFinish]; rfl
  | fail hcell => simp only [State.missing, hcell, Move.isFinish]; rfl
  | _ => rfl

/-- **Once**: at most one initialiser comes through. -/
theorem finish_le_one {ms : List (Move T ω η)} (h : Transition.run (step init) s ms = some s') :
    ms.countP Move.isFinish ≤ 1 := by
  have hcount := Transition.run_account (I := fun _ => True) (f := State.missing)
    (fun _ _ _ _ _ => trivial) (fun s m s' _ hstep => (moves_of_step hstep).missing) h trivial
  have hone : s.missing ≤ 1 := by
    unfold State.missing
    split <;> omega
  omega

-- ════════════════════════════════════════════════════════════════════════
-- What holds of the store
-- ════════════════════════════════════════════════════════════════════════

/-- What holds of the store while the cell is empty, beside a job, and beside a value. -/
structure Rely (E ι ρ : Type*) where
  vacant : E → Prop
  job : E → ι → Prop
  kept : E → ρ → Prop

/-- The initialiser keeps it, and so does what happens beside. -/
structure Rely.Keeps (R : Rely E ι ρ) (init : Initializer E ι ω ρ η) : Prop where
  start : ∀ e, R.vacant e → R.job e init.start
  work : ∀ e i answer e' i', R.job e i → init.work e i answer = some (e', i') → R.job e' i'
  finish : ∀ e i value, R.job e i → init.outcome i = some (some value) → R.kept e value
  undo : ∀ e i, R.job e i → init.outcome i = some none → R.vacant (init.undo e i)
  beside_vacant : ∀ e what e', R.vacant e → init.beside e what = some e' → R.vacant e'
  beside_job : ∀ e i what e', R.job e i → init.beside e what = some e' → R.job e' i
  beside_kept : ∀ e value what e', R.kept e value → init.beside e what = some e' →
    R.kept e' value

/-- The job is that of a thread in a call, and the store is as the cell says. -/
structure Rely.Holds (R : Rely E ι ρ) (s : State T E ι ρ) : Prop where
  owner : ∀ t job, s.cell = .busy t job → s.phase t = .inside
  vacant : s.cell = .empty → R.vacant s.store
  job : ∀ t job, s.cell = .busy t job → R.job s.store job
  kept : ∀ value, s.cell = .filled value → R.kept s.store value

variable {R : Rely E ι ρ}

/-- The phase of a thread that has no job is its own matter. -/
theorem Rely.Holds.put (h : R.Holds s) {t : T} {phase : Phase}
    (hphase : phase = .inside ∨ ∀ job, s.cell ≠ .busy t job) : R.Holds (s.put t phase) where
  owner := by
    intro u job hcell
    show Function.update s.phase t phase u = .inside
    by_cases hu : u = t
    · subst hu
      rw [Function.update_self]
      exact hphase.resolve_right fun hno => hno job hcell
    · rw [Function.update_of_ne hu]
      exact h.owner u job hcell
  vacant := h.vacant
  job := h.job
  kept := h.kept

/-- **One move** keeps it. -/
theorem Rely.Keeps.moves (hR : R.Keeps init) (h : R.Holds s) (hmoves : Moves init s m s') :
    R.Holds s' := by
  cases hmoves with
  | enter hphase => exact h.put (.inl rfl)
  | claim hcell hphase =>
    exact
      { owner := by
          rintro u job hbusy
          cases hbusy
          exact hphase
        vacant := by rintro ⟨⟩
        job := by
          rintro u job hbusy
          cases hbusy
          exact hR.start _ (h.vacant hcell)
        kept := by rintro value ⟨⟩ }
  | work hcell hwork =>
    exact
      { owner := by
          rintro u job hbusy
          cases hbusy
          exact h.owner _ _ hcell
        vacant := by rintro ⟨⟩
        job := by
          rintro u job hbusy
          cases hbusy
          exact hR.work _ _ _ _ _ (h.job _ _ hcell) hwork
        kept := by rintro value ⟨⟩ }
  | finish hcell houtcome =>
    exact
      { owner := by rintro u job ⟨⟩
        vacant := by rintro ⟨⟩
        job := by rintro u job ⟨⟩
        kept := by
          rintro value hfilled
          cases hfilled
          exact hR.finish _ _ _ (h.job _ _ hcell) houtcome }
  | fail hcell houtcome =>
    exact
      { owner := by rintro u job ⟨⟩
        vacant := fun _ => hR.undo _ _ (h.job _ _ hcell) houtcome
        job := by rintro u job ⟨⟩
        kept := by rintro value ⟨⟩ }
  | leave hcell hphase =>
    refine h.put (.inr fun job hbusy => ?_)
    rw [hcell] at hbusy
    cases hbusy
  | beside hstore =>
    exact
      { owner := h.owner
        vacant := fun hcell => hR.beside_vacant _ _ _ (h.vacant hcell) hstore
        job := fun t job hcell => hR.beside_job _ _ _ _ (h.job t job hcell) hstore
        kept := fun value hcell => hR.beside_kept _ _ _ _ (h.kept value hcell) hstore }

theorem Rely.Keeps.run (hR : R.Keeps init) (h : R.Holds s) {ms : List (Move T ω η)}
    (hrun : Transition.run (step init) s ms = some s') : R.Holds s' :=
  Transition.run_invariant (fun _ _ _ _ hs hstep => hR.moves hs (moves_of_step hstep)) hrun h

/-- A thread is on its way out of a call only if an initialiser has failed. -/
theorem Rely.Keeps.unwinding {F : Prop} (hR : R.Keeps init)
    (hF : ∀ e i, R.job e i → init.outcome i = some none → F) (h : R.Holds s)
    (hs : ∀ t, s.phase t = .unwinding → F) {ms : List (Move T ω η)}
    (hrun : Transition.run (step init) s ms = some s') : ∀ t, s'.phase t = .unwinding → F := by
  have hput : ∀ (s : State T E ι ρ) (t : T) (phase : Phase), phase ≠ .unwinding →
      (∀ u, s.phase u = .unwinding → F) → ∀ u, (s.put t phase).phase u = .unwinding → F := by
    intro s t phase hphase hs u hu
    by_cases heq : u = t
    · rw [heq] at hu
      exact absurd ((Function.update_self ..).symm.trans hu) hphase
    · exact hs u ((Function.update_of_ne heq ..).symm.trans hu)
  refine (Transition.run_invariant
    (I := fun s => R.Holds s ∧ ∀ t, s.phase t = .unwinding → F) ?_ hrun ⟨h, hs⟩).2
  rintro s m s' - ⟨h, hs⟩ hstep
  have hmoves := moves_of_step hstep
  refine ⟨hR.moves h hmoves, ?_⟩
  cases hmoves with
  | enter => exact hput s _ _ (by decide) hs
  | fail hcell houtcome => exact fun _ _ => hF _ _ (h.job _ _ hcell) houtcome
  | leave => exact hput s _ _ (by decide) hs
  | _ => exact hs

-- ════════════════════════════════════════════════════════════════════════
-- Every call comes to its end
-- ════════════════════════════════════════════════════════════════════════

section Progress

variable {rank : ι → ℕ}

/-- Each step of a job lowers its rank. -/
def Rely.Falls (R : Rely E ι ρ) (init : Initializer E ι ω ρ η) (rank : ι → ℕ) : Prop :=
  ∀ e i answer e' i', R.job e i → init.work e i answer = some (e', i') → rank i' < rank i

/-- The moves that a thread has still to make, at most. -/
def State.weight (init : Initializer E ι ω ρ η) (rank : ι → ℕ) (s : State T E ι ρ) (t : T) : ℕ :=
  match s.phase t with
  | .outside | .unwinding => 0
  | .inside =>
    match s.cell with
    | .empty => rank init.start + 3
    | .busy owner job => if owner = t then rank job + 2 else rank init.start + 3
    | .filled _ => 1

/-- The moves that all threads have still to make, at most. -/
def State.cost [Fintype T] (init : Initializer E ι ω ρ η) (rank : ι → ℕ)
    (s : State T E ι ρ) : ℕ :=
  ∑ t, s.weight init rank t

/-- A move lowers the weight of its thread, and raises no other. -/
theorem Moves.weight_lt (hrank : R.Falls init rank) {t : T} (h : Moves init s m s') (hR : R.Holds s)
    (henter : ∀ u, m ≠ .enter u) (ht : m.thread? = some t) :
    s'.weight init rank t < s.weight init rank t := by
  cases h with
  | enter => exact absurd rfl (henter _)
  | claim hcell hphase =>
    cases ht
    simp only [State.weight, hcell, hphase, if_true]
    omega
  | work hcell hwork =>
    cases ht
    have hlt := hrank _ _ _ _ _ (hR.job _ _ hcell) hwork
    simp only [State.weight, hcell, hR.owner _ _ hcell, if_true]
    omega
  | finish hcell houtcome =>
    cases ht
    simp only [State.weight, hcell, hR.owner _ _ hcell, if_true]
    omega
  | fail hcell houtcome =>
    cases ht
    simp only [State.weight, State.put, Function.update_self, hcell, hR.owner _ _ hcell, if_true]
    omega
  | leave hcell hphase =>
    cases ht
    simp only [State.weight, State.put, Function.update_self, hcell, hphase]
    omega
  | beside hstore => cases ht

theorem Moves.weight_le {t : T} (h : Moves init s m s') (hne : m.thread? ≠ some t) :
    s'.weight init rank t ≤ s.weight init rank t := by
  have hother : ∀ u, m.thread? = some u → u ≠ t := fun u hu heq => hne (heq ▸ hu)
  cases h with
  | enter hphase =>
    simp only [State.weight, State.put, Function.update_of_ne (hother _ rfl).symm, le_refl]
  | claim hcell hphase =>
    simp only [State.weight, hcell, if_neg (hother _ rfl), le_refl]
  | work hcell hwork =>
    simp only [State.weight, hcell, if_neg (hother _ rfl), le_refl]
  | finish hcell houtcome =>
    simp only [State.weight, hcell, if_neg (hother _ rfl)]
    split <;> omega
  | fail hcell houtcome =>
    simp only [State.weight, State.put, Function.update_of_ne (hother _ rfl).symm, hcell,
      if_neg (hother _ rfl), le_refl]
  | leave hcell hphase =>
    simp only [State.weight, State.put, Function.update_of_ne (hother _ rfl).symm, le_refl]
  | beside hstore => exact le_rfl

/-- **Someone can go on**: while a thread is in a call, one that is has a move. -/
theorem exists_moves {t : T} (hR : R.Holds s) (hphase : s.phase t = .inside)
    (hgoes : ∀ e i, R.job e i → init.outcome i = none → ∃ answer, (init.work e i answer).isSome) :
    ∃ m s', Moves init s m s' ∧ (∀ u, m ≠ .enter u) ∧ ∀ what, m ≠ .beside what := by
  cases hcell : s.cell with
  | empty => exact ⟨_, _, .claim hcell hphase, by simp, by simp⟩
  | filled value => exact ⟨_, _, .leave hcell hphase, by simp, by simp⟩
  | busy owner job =>
    cases houtcome : init.outcome job with
    | none =>
      obtain ⟨answer, hanswer⟩ := hgoes _ _ (hR.job owner job hcell) houtcome
      obtain ⟨⟨store, job'⟩, hwork⟩ := Option.isSome_iff_exists.mp hanswer
      exact ⟨_, _, .work hcell hwork, by simp, by simp⟩
    | some result =>
      cases result with
      | none => exact ⟨_, _, .fail hcell houtcome, by simp, by simp⟩
      | some value => exact ⟨_, _, .finish hcell houtcome, by simp, by simp⟩

variable [Fintype T]

/-- **Each move of a call** that has been entered is one less to come. -/
theorem Moves.cost_lt (hrank : R.Falls init rank) (h : Moves init s m s') (hR : R.Holds s)
    (henter : ∀ u, m ≠ .enter u) (hbeside : ∀ what, m ≠ .beside what) :
    s'.cost init rank < s.cost init rank := by
  obtain ⟨t, ht⟩ : ∃ t, m.thread? = some t := by
    cases m with
    | beside what => exact absurd rfl (hbeside what)
    | _ => exact ⟨_, rfl⟩
  refine Finset.sum_lt_sum (fun u _ => ?_) ⟨t, Finset.mem_univ t, ?_⟩
  · by_cases hu : m.thread? = some u
    · exact (h.weight_lt hrank hR henter hu).le
    · exact h.weight_le hu
  · exact h.weight_lt hrank hR henter ht

/-- A move of a call that has been entered. -/
def Move.isOwn : Move T ω η → Bool
  | .enter _ | .beside _ => false
  | _ => true

def Move.isEnter : Move T ω η → Bool
  | .enter _ => true
  | _ => false

variable (rank) in
theorem Moves.cost_enter {t : T} (h : Moves init s (.enter t) s') (hR : R.Holds s) :
    s'.cost init rank ≤ s.cost init rank + (rank init.start + 3) := by
  have hother : ∑ u ∈ Finset.univ.erase t, s'.weight init rank u ≤
      ∑ u ∈ Finset.univ.erase t, s.weight init rank u := by
    refine Finset.sum_le_sum fun u hu => h.weight_le fun heq => ?_
    exact Finset.ne_of_mem_erase hu (Option.some.inj heq).symm
  have hself : s'.weight init rank t ≤ rank init.start + 3 := by
    cases h with
    | enter hphase =>
      simp only [State.weight, State.put, Function.update_self]
      split
      · exact le_rfl
      · next owner job hcell =>
        have howner : owner ≠ t := by
          rintro rfl
          rw [hR.owner _ _ hcell] at hphase
          cases hphase
        rw [if_neg howner]
      · omega
  unfold State.cost
  rw [← Finset.add_sum_erase _ (s'.weight init rank) (Finset.mem_univ t),
    ← Finset.add_sum_erase _ (s.weight init rank) (Finset.mem_univ t)]
  omega

variable (rank) in
theorem Moves.cost_beside {what : η} (h : Moves init s (.beside what) s') :
    s'.cost init rank = s.cost init rank := by
  cases h
  rfl

/-- **A bound on the moves** that calls make, whatever goes on beside them: so many for each call
that is entered. -/
theorem run_cost (hR : R.Keeps init) (hrank : R.Falls init rank) (h : R.Holds s)
    {ms : List (Move T ω η)} (hrun : Transition.run (step init) s ms = some s') :
    ms.countP Move.isOwn + s'.cost init rank ≤
      s.cost init rank + (rank init.start + 3) * ms.countP Move.isEnter := by
  induction ms generalizing s with
  | nil =>
    cases hrun
    exact (Nat.zero_add _).le
  | cons m ms ih =>
    obtain ⟨u, hu, hrest⟩ := Transition.run_cons_eq_some.mp hrun
    have hmoves := moves_of_step hu
    have htail := ih (hR.moves h hmoves) hrest
    rw [List.countP_cons, List.countP_cons]
    cases m with
    | enter t =>
      have hcost := hmoves.cost_enter rank h
      simp only [Move.isOwn, Move.isEnter, Bool.false_eq_true, if_false, if_true, Nat.mul_add]
      omega
    | beside what =>
      have hcost := hmoves.cost_beside rank
      simp only [Move.isOwn, Move.isEnter, Bool.false_eq_true, if_false, Nat.add_zero]
      omega
    | _ =>
      have hcost := hmoves.cost_lt hrank h (by simp) (by simp)
      simp only [Move.isOwn, Move.isEnter, Bool.false_eq_true, if_false, if_true, Nat.add_zero]
      omega

/-- **All calls can come to their end** without any other being entered, and without anything
beside them. -/
theorem exists_settled (hR : R.Keeps init) (hrank : R.Falls init rank)
    (hgoes : ∀ e i, R.job e i → init.outcome i = none → ∃ answer, (init.work e i answer).isSome)
    (h : R.Holds s) :
    ∃ (ms : List (Move T ω η)) (s' : State T E ι ρ),
      Transition.run (step init) s ms = some s' ∧ (∀ m ∈ ms, m.isOwn = true) ∧
      (∀ t, s'.phase t ≠ .inside) ∧ ms.length ≤ s.cost init rank := by
  induction hcost : s.cost init rank using Nat.strong_induction_on generalizing s with
  | h n ih =>
    by_cases hdone : ∀ t, s.phase t ≠ .inside
    · exact ⟨[], s, rfl, by simp, hdone, Nat.zero_le _⟩
    · push Not at hdone
      obtain ⟨t, ht⟩ := hdone
      obtain ⟨m, u, hmoves, henter, hbeside⟩ := exists_moves h ht hgoes
      have hlt := hmoves.cost_lt hrank h henter hbeside
      rw [hcost] at hlt
      obtain ⟨ms, s', hrun, hown, hinside, hlength⟩ := ih _ hlt (hR.moves h hmoves) rfl
      have hm : m.isOwn = true := by
        cases m with
        | enter u => exact absurd rfl (henter u)
        | beside what => exact absurd rfl (hbeside what)
        | _ => rfl
      refine ⟨m :: ms, s', Transition.run_cons_eq_some.mpr ⟨u, hmoves.step_eq, hrun⟩,
        List.forall_mem_cons.mpr ⟨hm, hown⟩, hinside, ?_⟩
      rw [List.length_cons]
      omega

end Progress

end Once
