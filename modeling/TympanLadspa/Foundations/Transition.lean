import Mathlib.Data.List.Induction

/-!
# Runs of partial transition functions

A system is a partial step function `σ → ι → Option σ`: `none` means that the
action is not enabled. `run` executes a list of actions. The rules below package
the induction over a run once: an invariant, an invariant that holds while a
guard does, a forward simulation, two systems in lockstep and a projection.
-/

namespace Transition

variable {σ τ ι κ : Type*}

/-- Execute a list of actions; `none` as soon as one of them is not enabled. -/
def run (step : σ → ι → Option σ) : σ → List ι → Option σ
  | s, [] => some s
  | s, a :: as => (step s a).bind fun t => run step t as

/-- `t` is reached from `s` by some list of actions. -/
def Reaches (step : σ → ι → Option σ) (s t : σ) : Prop :=
  ∃ as, run step s as = some t

/-- What the steps of a run emit, in order. -/
def along {β : Type*} (step : σ → ι → Option σ) (emit : σ → ι → List β) : σ → List ι → List β
  | _, [] => []
  | s, a :: as =>
    emit s a ++
      match step s a with
      | some t => along step emit t as
      | none => []

/-- The part of a system in which every action taken satisfies `allowed`. -/
def restrict (allowed : σ → ι → Prop) [∀ s a, Decidable (allowed s a)]
    (step : σ → ι → Option σ) (s : σ) (a : ι) : Option σ :=
  if allowed s a then step s a else none

/-- Every step taken on the way through `as` satisfies `R`. -/
def EachStep (step : σ → ι → Option σ) (R : σ → ι → σ → Prop) (s : σ) (as : List ι) : Prop :=
  ∀ bs a cs t u, as = bs ++ a :: cs → run step s bs = some t → step t a = some u → R t a u

/-- The way through `as` comes by a state of `P`. -/
def Through (step : σ → ι → Option σ) (P : σ → Prop) (s : σ) (as : List ι) : Prop :=
  ∃ bs cs t, as = bs ++ cs ∧ run step s bs = some t ∧ P t

/-- Each action is one that may be taken where the actions before it lead. -/
def Obeys (step : σ → ι → Option σ) (may : σ → ι → Prop) : σ → List ι → Prop
  | _, [] => True
  | s, a :: as => may s a ∧ ∀ t, step s a = some t → Obeys step may t as

variable {step : σ → ι → Option σ}

@[simp] theorem run_nil (s : σ) : run step s [] = some s := rfl

theorem run_cons (s : σ) (a : ι) (as : List ι) :
    run step s (a :: as) = (step s a).bind fun t => run step t as := rfl

theorem run_append (s : σ) (as bs : List ι) :
    run step s (as ++ bs) = (run step s as).bind fun t => run step t bs := by
  induction as generalizing s with
  | nil => rfl
  | cons a as ih =>
    rw [List.cons_append, run_cons, run_cons]
    cases step s a with
    | none => rfl
    | some t => exact ih t

theorem run_cons_eq_some {s u : σ} {a : ι} {as : List ι} :
    run step s (a :: as) = some u ↔ ∃ t, step s a = some t ∧ run step t as = some u := by
  rw [run_cons, Option.bind_eq_some_iff]

theorem run_append_eq_some {s u : σ} {as bs : List ι} :
    run step s (as ++ bs) = some u ↔
      ∃ t, run step s as = some t ∧ run step t bs = some u := by
  rw [run_append, Option.bind_eq_some_iff]

/-- Expose the last action of a run. -/
theorem run_concat_eq_some {s u : σ} {as : List ι} {a : ι} :
    run step s (as ++ [a]) = some u ↔ ∃ t, run step s as = some t ∧ step t a = some u := by
  simp only [run_append_eq_some, run_cons_eq_some, run_nil, Option.some.injEq, exists_eq_right]

theorem along_cons_of_step {β : Type*} {emit : σ → ι → List β} {s t : σ} {a : ι}
    (h : step s a = some t) (as : List ι) :
    along step emit s (a :: as) = emit s a ++ along step emit t as := by
  rw [along, h]

theorem along_append {β : Type*} {emit : σ → ι → List β} {s t : σ} {as : List ι}
    (h : run step s as = some t) (bs : List ι) :
    along step emit s (as ++ bs) = along step emit s as ++ along step emit t bs := by
  induction as generalizing s with
  | nil =>
    cases h
    rfl
  | cons a as ih =>
    obtain ⟨u, hu, hrest⟩ := run_cons_eq_some.mp h
    rw [List.cons_append, along_cons_of_step hu, along_cons_of_step hu, ih hrest,
      List.append_assoc]

theorem EachStep.nil {R : σ → ι → σ → Prop} (s : σ) : EachStep step R s [] := by
  intro bs a cs t u has
  cases bs <;> cases has

theorem EachStep.cons {R : σ → ι → σ → Prop} {s t : σ} {a : ι} {as : List ι}
    (hstep : step s a = some t) (hR : R s a t) (hrest : EachStep step R t as) :
    EachStep step R s (a :: as) := by
  intro bs b cs u v has hrun hb
  cases bs with
  | nil =>
    cases has
    cases hrun
    rw [hstep] at hb
    exact Option.some.inj hb ▸ hR
  | cons c bs =>
    obtain ⟨rfl, rfl⟩ := List.cons.inj has
    obtain ⟨t', ht', hrest'⟩ := run_cons_eq_some.mp hrun
    rw [hstep] at ht'
    obtain rfl := Option.some.inj ht'
    exact hrest bs b cs u v rfl hrest' hb

theorem EachStep.of_cons {R : σ → ι → σ → Prop} {s t : σ} {a : ι} {as : List ι}
    (h : EachStep step R s (a :: as)) (hstep : step s a = some t) :
    R s a t ∧ EachStep step R t as := by
  constructor
  · exact h [] a as s t rfl rfl hstep
  · intro bs b cs u v has hbs hb
    have hrun : run step s (a :: bs) = some u := run_cons_eq_some.mpr ⟨t, hstep, hbs⟩
    exact h (a :: bs) b cs u v (by rw [has, List.cons_append]) hrun hb

theorem EachStep.append {R : σ → ι → σ → Prop} {s t : σ} {as bs : List ι}
    (h : EachStep step R s as) (hrun : run step s as = some t) (h' : EachStep step R t bs) :
    EachStep step R s (as ++ bs) := by
  induction as generalizing s with
  | nil =>
    cases hrun
    exact h'
  | cons a as ih =>
    obtain ⟨u, hu, hrest⟩ := run_cons_eq_some.mp hrun
    obtain ⟨hR, htail⟩ := h.of_cons hu
    exact .cons hu hR (ih htail hrest)

/-- Append a step at the end. -/
theorem EachStep.concat {R : σ → ι → σ → Prop} {s t u : σ} {a : ι} {as : List ι}
    (h : EachStep step R s as) (hrun : run step s as = some t) (hstep : step t a = some u)
    (hR : R t a u) : EachStep step R s (as ++ [a]) := by
  intro bs b cs v x has hbs hb
  rcases List.eq_nil_or_concat cs with rfl | ⟨cs, c, rfl⟩
  · obtain ⟨rfl, hab⟩ := List.append_inj' has rfl
    obtain rfl := (List.cons.inj hab).1
    rw [hrun] at hbs
    obtain rfl := Option.some.inj hbs
    rw [hstep] at hb
    exact Option.some.inj hb ▸ hR
  · rw [List.concat_eq_append, ← List.cons_append, ← List.append_assoc] at has
    exact h bs b cs v x (List.append_inj' has rfl).1 hbs hb

theorem Through.imp {P Q : σ → Prop} {s t : σ} {as : List ι} (h : Through step P s as)
    (hrun : run step s as = some t)
    (himp : ∀ u, Reaches step s u → Reaches step u t → P u → Q u) : Through step Q s as := by
  obtain ⟨bs, cs, u, rfl, hbs, hu⟩ := h
  obtain ⟨u', hu', hcs⟩ := run_append_eq_some.mp hrun
  obtain rfl := Option.some.inj (hbs.symm.trans hu')
  exact ⟨bs, cs, u, rfl, hbs, himp u ⟨bs, hbs⟩ ⟨cs, hcs⟩ hu⟩

theorem Through.here {P : σ → Prop} {s : σ} (h : P s) (as : List ι) : Through step P s as :=
  ⟨[], as, s, rfl, rfl, h⟩

theorem Through.cons {P : σ → Prop} {s t : σ} {a : ι} {as : List ι}
    (hstep : step s a = some t) (h : Through step P t as) : Through step P s (a :: as) := by
  obtain ⟨bs, cs, u, rfl, hrun, hu⟩ := h
  exact ⟨a :: bs, cs, u, rfl, run_cons_eq_some.mpr ⟨t, hstep, hrun⟩, hu⟩

theorem restrict_eq_some {allowed : σ → ι → Prop} [∀ s a, Decidable (allowed s a)]
    {s t : σ} {a : ι} :
    restrict allowed step s a = some t ↔ allowed s a ∧ step s a = some t := by
  unfold restrict
  split <;> simp_all

theorem run_of_restrict {allowed : σ → ι → Prop} [∀ s a, Decidable (allowed s a)] {s t : σ}
    {as : List ι} (h : run (restrict allowed step) s as = some t) : run step s as = some t := by
  induction as generalizing s with
  | nil => exact h
  | cons a as ih =>
    obtain ⟨u, hu, hrest⟩ := run_cons_eq_some.mp h
    exact run_cons_eq_some.mpr ⟨u, (restrict_eq_some.mp hu).2, ih hrest⟩

theorem Reaches.of_run {s t : σ} {as : List ι} (h : run step s as = some t) :
    Reaches step s t := ⟨as, h⟩

theorem Reaches.refl (s : σ) : Reaches step s s := ⟨[], rfl⟩

theorem Reaches.trans {s t u : σ} (h₁ : Reaches step s t) (h₂ : Reaches step t u) :
    Reaches step s u := by
  obtain ⟨as, has⟩ := h₁
  obtain ⟨bs, hbs⟩ := h₂
  exact ⟨as ++ bs, run_append_eq_some.mpr ⟨t, has, hbs⟩⟩

theorem Reaches.single {s t : σ} {a : ι} (h : step s a = some t) : Reaches step s t :=
  ⟨[a], run_cons_eq_some.mpr ⟨t, h, rfl⟩⟩

/-- **Invariant rule**: what every step taken in a run preserves, the run preserves. -/
theorem run_invariant {I : σ → Prop} {as : List ι}
    (hstep : ∀ s a t, a ∈ as → I s → step s a = some t → I t) {s t : σ}
    (hrun : run step s as = some t) (hs : I s) : I t := by
  induction as generalizing s with
  | nil => exact Option.some.inj hrun ▸ hs
  | cons a as ih =>
    obtain ⟨u, hu, hrest⟩ := run_cons_eq_some.mp hrun
    exact ih (fun s b t hb => hstep s b t (List.mem_cons_of_mem a hb)) hrest
      (hstep s a u List.mem_cons_self hs hu)

theorem Reaches.invariant {I : σ → Prop}
    (hstep : ∀ s a t, I s → step s a = some t → I t) {s t : σ}
    (h : Reaches step s t) (hs : I s) : I t :=
  h.elim fun _ hrun => run_invariant (fun s a t _ => hstep s a t) hrun hs

/-- The steps of a run do what steps from states of an invariant do. -/
theorem EachStep.of_invariant {I : σ → Prop} {R : σ → ι → σ → Prop} {s : σ} {as : List ι}
    (hI : ∀ s a t, a ∈ as → I s → step s a = some t → I t)
    (hR : ∀ s a t, a ∈ as → I s → step s a = some t → R s a t) (hs : I s) :
    EachStep step R s as := by
  rintro bs a cs t u rfl hbs hstep
  have ht : I t := run_invariant
    (fun s b v hb => hI s b v (List.mem_append_left _ hb)) hbs hs
  exact hR t a u (List.mem_append_right bs List.mem_cons_self) ht hstep

/-- **Invariant rule** for a run whose steps all satisfy `R`. -/
theorem EachStep.invariant {I : σ → Prop} {R : σ → ι → σ → Prop}
    (hstep : ∀ s a t, I s → R s a t → step s a = some t → I t) {s t : σ} {as : List ι}
    (heach : EachStep step R s as) (hrun : run step s as = some t) (hs : I s) : I t := by
  induction as using List.reverseRecOn generalizing t with
  | nil => exact Option.some.inj hrun ▸ hs
  | append_singleton as a ih =>
    obtain ⟨u, hu, hlast⟩ := run_concat_eq_some.mp hrun
    refine hstep u a t (ih ?_ hu) (heach as a [] u t rfl hu hlast) hlast
    intro bs b cs v x has
    exact heach bs b (cs ++ [a]) v x (by rw [has, List.append_assoc, List.cons_append])

/-- **Accounting rule**: what each step takes from `f` is one for an action of `p` and nothing
for another, so a run takes as much as it has actions of `p`. -/
theorem run_account {I : σ → Prop} {f : σ → ℕ} {p : ι → Bool}
    (hI : ∀ s a t, I s → step s a = some t → I t)
    (hf : ∀ s a t, I s → step s a = some t → f s = f t + if p a then 1 else 0)
    {s t : σ} {as : List ι} (hrun : run step s as = some t) (hs : I s) :
    f s = f t + as.countP p := by
  induction as generalizing s with
  | nil =>
    cases hrun
    rfl
  | cons a as ih =>
    obtain ⟨u, hu, hrest⟩ := run_cons_eq_some.mp hrun
    rw [hf s a u hs hu, ih hrest (hI s a u hs hu), List.countP_cons, Nat.add_assoc]

/-- A guard that cannot be regained held all the way to where it still holds. -/
theorem Reaches.guard {G : σ → Prop} (hback : ∀ s a t, step s a = some t → G t → G s)
    {s t : σ} (h : Reaches step s t) (ht : G t) : G s := by
  by_contra hs
  exact h.invariant (I := fun u => ¬ G u)
    (fun u a v hu hstep hv => hu (hback u a v hstep hv)) hs ht

/-- **Guarded invariant rule**: the guard `G` cannot be regained once it is lost,
so in a run that ends inside `G` every step is taken inside `G`. -/
theorem Reaches.guarded_invariant {G I : σ → Prop}
    (hback : ∀ s a t, step s a = some t → G t → G s)
    (hstep : ∀ s a t, G s → G t → I s → step s a = some t → I t) {s t : σ}
    (h : Reaches step s t) (hs : G s → I s) (ht : G t) : I t := by
  refine Reaches.invariant (I := fun u => G u → I u) ?_ h hs ht
  intro u a v hu hstepuv hv
  have hGu := hback u a v hstepuv hv
  exact hstep u a v hGu hv (hu hGu) hstepuv

/-- **Passage rule**: a run that starts in `A`, can leave it only from a state of `P` into
`B` or for good into `D`, and is neither in `A` nor in `D` at its end, comes by a state of
`P`, and all its steps are steps of `R`. -/
theorem run_passage {A B D P : σ → Prop} {R : σ → ι → σ → Prop} {as : List ι}
    (hA : ∀ s a t, a ∈ as → A s → step s a = some t →
      A t ∧ R s a t ∨ P s ∧ B t ∧ R s a t ∨ D t)
    (hB : ∀ s a t, a ∈ as → B s → step s a = some t → B t ∧ R s a t ∨ D t)
    (hD : ∀ s a t, a ∈ as → D s → step s a = some t → D t) {s t : σ}
    (hrun : run step s as = some t) (hs : A s) (htA : ¬ A t) (htD : ¬ D t) :
    Through step P s as ∧ EachStep step R s as ∧ B t := by
  -- the part of the run behind the passage
  have hafter : ∀ bs ⊆ as, ∀ s, B s → run step s bs = some t → EachStep step R s bs ∧ B t := by
    intro bs
    induction bs with
    | nil =>
      rintro - s hs hrun
      exact ⟨.nil s, Option.some.inj hrun ▸ hs⟩
    | cons a bs ih =>
      intro hsub s hs hrun
      obtain ⟨u, hu, hrest⟩ := run_cons_eq_some.mp hrun
      rcases hB s a u (hsub List.mem_cons_self) hs hu with ⟨huB, hR⟩ | huD
      · obtain ⟨heach, ht⟩ := ih (List.subset_of_cons_subset hsub) u huB hrest
        exact ⟨.cons hu hR heach, ht⟩
      · exact absurd (run_invariant (fun s b v hb => hD s b v
          (hsub (List.mem_cons_of_mem a hb))) hrest huD) htD
  induction as generalizing s with
  | nil => exact absurd (Option.some.inj hrun ▸ hs) htA
  | cons a as ih =>
    obtain ⟨u, hu, hrest⟩ := run_cons_eq_some.mp hrun
    rcases hA s a u List.mem_cons_self hs hu with ⟨huA, hR⟩ | ⟨hP, huB, hR⟩ | huD
    · obtain ⟨hthrough, heach, ht⟩ := ih
        (fun s b v hb => hA s b v (List.mem_cons_of_mem a hb))
        (fun s b v hb => hB s b v (List.mem_cons_of_mem a hb))
        (fun s b v hb => hD s b v (List.mem_cons_of_mem a hb)) hrest huA
        (fun bs hbs => hafter bs (List.subset_cons_of_subset a hbs))
      exact ⟨hthrough.cons hu, .cons hu hR heach, ht⟩
    · obtain ⟨heach, ht⟩ := hafter as (List.subset_cons_self a as) u huB hrest
      exact ⟨.here hP _, .cons hu hR heach, ht⟩
    · exact absurd (run_invariant (fun s b v hb => hD s b v
        (List.mem_cons_of_mem a hb)) hrest huD) htD

/-- **Forward simulation**: a relation that every step of one system carries along a run of
the other over the emitted events, whole runs carry along. -/
theorem run_simulation {ε : Type*} {emit : σ → ι → List ε} {step' : τ → ε → Option τ}
    {R : σ → τ → Prop}
    (hsim : ∀ s a t s', R s s' → step s a = some t →
      ∃ t', run step' s' (emit s a) = some t' ∧ R t t')
    {as : List ι} {s t : σ} {s' : τ} (hrun : run step s as = some t) (hR : R s s') :
    ∃ t', run step' s' (along step emit s as) = some t' ∧ R t t' := by
  induction as generalizing s s' with
  | nil =>
    cases hrun
    exact ⟨s', rfl, hR⟩
  | cons a as ih =>
    obtain ⟨u, hu, hrest⟩ := run_cons_eq_some.mp hrun
    obtain ⟨u', hu', hRu⟩ := hsim s a u s' hR hu
    obtain ⟨t', ht', hRt⟩ := ih hrest hRu
    rw [along_cons_of_step hu]
    exact ⟨t', run_append_eq_some.mpr ⟨u', hu', ht'⟩, hRt⟩

/-- **Forward simulation** for a run whose steps all satisfy `C`. -/
theorem EachStep.simulation {ε : Type*} {emit : σ → ι → List ε} {step' : τ → ε → Option τ}
    {R : σ → τ → Prop} {C : σ → ι → σ → Prop}
    (hsim : ∀ s a t s', R s s' → C s a t → step s a = some t →
      ∃ t', run step' s' (emit s a) = some t' ∧ R t t')
    {as : List ι} {s t : σ} {s' : τ} (heach : EachStep step C s as)
    (hrun : run step s as = some t) (hR : R s s') :
    ∃ t', run step' s' (along step emit s as) = some t' ∧ R t t' := by
  induction as generalizing s s' with
  | nil =>
    cases hrun
    exact ⟨s', rfl, hR⟩
  | cons a as ih =>
    obtain ⟨u, hu, hrest⟩ := run_cons_eq_some.mp hrun
    obtain ⟨hC, heach⟩ := heach.of_cons hu
    obtain ⟨u', hu', hRu⟩ := hsim s a u s' hR hC hu
    obtain ⟨t', ht', hRt⟩ := ih heach hrest hRu
    rw [along_cons_of_step hu]
    exact ⟨t', run_append_eq_some.mpr ⟨u', hu', ht'⟩, hRt⟩

/-- **Lockstep rule**: states from which two systems can take the same action, to states
that are related again, let both take any list of such actions. -/
theorem run_lockstep {step' : τ → ι → Option τ} {R : σ → τ → Prop} {as : List ι}
    (hstep : ∀ s s' a, a ∈ as → R s s' →
      ∃ t t', step s a = some t ∧ step' s' a = some t' ∧ R t t')
    {s : σ} {s' : τ} (hs : R s s') :
    ∃ t t', run step s as = some t ∧ run step' s' as = some t' ∧ R t t' := by
  induction as generalizing s s' with
  | nil => exact ⟨s, s', rfl, rfl, hs⟩
  | cons a as ih =>
    obtain ⟨u, u', hu, hu', hR⟩ := hstep s s' a List.mem_cons_self hs
    obtain ⟨t, t', ht, ht', hRt⟩ :=
      ih (fun v v' b hb => hstep v v' b (List.mem_cons_of_mem a hb)) hR
    exact ⟨t, t', run_cons_eq_some.mpr ⟨u, hu, ht⟩, run_cons_eq_some.mpr ⟨u', hu', ht'⟩, hRt⟩

/-- **Bisimulation rule**: systems whose steps agree on whether an action can be taken, and stay
related when it is, agree on every run. -/
theorem run_bisimulation {step' : τ → ι → Option τ} {R : σ → τ → Prop}
    (hstep : ∀ s s' a, R s s' → Option.Rel R (step s a) (step' s' a)) {s : σ} {s' : τ}
    (hs : R s s') (as : List ι) : Option.Rel R (run step s as) (run step' s' as) := by
  induction as generalizing s s' with
  | nil => exact .some hs
  | cons a as ih =>
    rw [run_cons, run_cons]
    have hrel := hstep s s' a hs
    generalize step s a = next at hrel
    generalize step' s' a = next' at hrel
    cases hrel with
    | some hR => exact ih hR
    | none => exact .none

/-- **Projection rule**: when each step looks to a component like a run of its own machine
over the emitted events, a whole run does. -/
theorem run_project {ε : Type*} {emit : σ → ι → List ε} {proj : σ → τ}
    {step' : τ → ε → Option τ}
    (hproj : ∀ s a t, step s a = some t → run step' (proj s) (emit s a) = some (proj t))
    {as : List ι} {s t : σ} (hrun : run step s as = some t) :
    run step' (proj s) (along step emit s as) = some (proj t) := by
  obtain ⟨t', ht', rfl⟩ := run_simulation (R := fun s s' => proj s = s')
    (fun s a t s' hs hstep => ⟨proj t, hs ▸ hproj s a t hstep, rfl⟩) hrun rfl
  exact ht'

/-- The actions of a run, read off its steps. -/
theorem along_self {s t : σ} {as : List ι} (h : run step s as = some t) :
    along step (fun _ a => [a]) s as = as := by
  induction as generalizing s with
  | nil => rfl
  | cons a as ih =>
    obtain ⟨u, hu, hrest⟩ := run_cons_eq_some.mp h
    rw [along_cons_of_step hu, ih hrest, List.singleton_append]

/-- The restricted system only takes steps of the whole one. -/
theorem Reaches.of_restrict {allowed : σ → ι → Prop} [∀ s a, Decidable (allowed s a)]
    {s t : σ} (h : Reaches (restrict allowed step) s t) : Reaches step s t :=
  h.imp fun _ => run_of_restrict

theorem Obeys.cons {may : σ → ι → Prop} {s t : σ} {a : ι} {as : List ι}
    (hstep : step s a = some t) (hmay : may s a) (h : Obeys step may t as) :
    Obeys step may s (a :: as) := by
  refine ⟨hmay, fun u hu => ?_⟩
  obtain rfl := Option.some.inj (hstep.symm.trans hu)
  exact h

/-- **Progress rule**: when an action that may be taken is enabled, and keeps the invariant, a
list of such actions is carried out to its end. -/
theorem Obeys.progress {may : σ → ι → Prop} {I : σ → Prop} {s : σ} {as : List ι}
    (h : Obeys step may s as) (hs : I s)
    (hstep : ∀ s a, I s → may s a → ∃ t, step s a = some t ∧ I t) :
    ∃ t, run step s as = some t ∧ I t := by
  induction as generalizing s with
  | nil => exact ⟨s, rfl, hs⟩
  | cons a as ih =>
    obtain ⟨hmay, hrest⟩ := h
    obtain ⟨u, hu, hI⟩ := hstep s a hs hmay
    obtain ⟨t, ht, hIt⟩ := ih (hrest u hu) hI
    exact ⟨t, run_cons_eq_some.mpr ⟨u, hu, ht⟩, hIt⟩

end Transition
