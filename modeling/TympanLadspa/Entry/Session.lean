import TympanLadspa.Entry.Isolation

/-!
# Sessions of a plugin

The calls that reach a plugin behind its instance, each run with the ports and the memory it
starts from. Two plugins whose runs depend on a part of the state only, and make the same of
it, cannot be told apart by what that part and the memory become.
-/

namespace Entry

open Port (Memory Ports Panic Prog)

variable {α σ : Type} {P : Plugin α σ}

/-- What a run starts from. -/
structure Cycle (α : Type) where
  ports : Ports α
  memory : Memory α

/-- A run of the plugin in `run_shim`. -/
def Plugin.cycle (P : Plugin α σ) (state : σ) (c : Cycle α) : Except Panic (σ × Memory α) :=
  (P.run state c.ports.frames).exec c.ports c.memory

/-- Runs one after the other: the state and the memory behind each. -/
def Plugin.cycles (P : Plugin α σ) : σ → List (Cycle α) → Except Panic (List (σ × Memory α))
  | _, [] => .ok []
  | state, c :: cs => do
    let r ← P.cycle state c
    let rs ← P.cycles r.1 cs
    return r :: rs

/-- A run that returns comes in front of those behind it. -/
theorem Plugin.cycles_cons {state state' : σ} {memory : Memory α} {c : Cycle α}
    {cs : List (Cycle α)} {rs : List (σ × Memory α)}
    (hcycle : P.cycle state c = .ok (state', memory)) (hrs : P.cycles state' cs = .ok rs) :
    P.cycles state (c :: cs) = .ok ((state', memory) :: rs) := by
  rw [cycles, hcycle]
  simp only [bind, Except.bind, hrs]
  rfl

/-- A call that reaches the plugin. -/
inductive Visit (α : Type)
  | activate
  | run (c : Cycle α)
  | deactivate

/-- The plugin behind a call that returns. -/
def Plugin.visit (P : Plugin α σ) (state : σ) : Visit α → Option σ
  | .activate => some (P.activate state)
  | .run c => (P.cycle state c).toOption.map Prod.fst
  | .deactivate => some (P.deactivate state)

theorem Plugin.visit_run {state state' : σ} {c : Cycle α} :
    P.visit state (.run c) = some state' ↔ ∃ memory, P.cycle state c = .ok (state', memory) := by
  rw [visit]
  cases P.cycle state c with
  | error panic => simp [Except.toOption]
  | ok r => simp [Except.toOption, Prod.ext_iff]

-- ════════════════════════════════════════════════════════════════════════
-- What a plugin looks at
-- ════════════════════════════════════════════════════════════════════════

section Alike

variable {σ' τ : Type} {P' : Plugin α σ'} {view : σ → τ} {view' : σ' → τ}

/-- States with the same view run the same, to states with the same view. -/
def Alike (P : Plugin α σ) (P' : Plugin α σ') (view : σ → τ) (view' : σ' → τ) : Prop :=
  ∀ state state' frames, view state = view' state' →
    (P.run state frames).map view = (P'.run state' frames).map view'

theorem Alike.cycle (h : Alike P P' view view') {state : σ} {state' : σ'}
    (hview : view state = view' state') (c : Cycle α) :
    (P.cycle state c).map (Prod.map view id) = (P'.cycle state' c).map (Prod.map view' id) := by
  unfold Plugin.cycle
  rw [← Prog.exec_map_eq, ← Prog.exec_map_eq, h state state' _ hview]

/-- Results with the same image. -/
theorem except_map_eq_map {ε β γ δ : Type} {x : Except ε β} {y : Except ε γ} {f : β → δ}
    {g : γ → δ} (h : x.map f = y.map g) :
    (∃ e, x = .error e ∧ y = .error e) ∨ ∃ b c, x = .ok b ∧ y = .ok c ∧ f b = g c := by
  cases x with
  | error e =>
    cases y with
    | error e' => exact .inl ⟨e, rfl, congrArg _ (Except.error.inj h).symm⟩
    | ok c => cases h
  | ok b =>
    cases y with
    | error e' => cases h
    | ok c => exact .inr ⟨b, c, rfl, rfl, Except.ok.inj h⟩

theorem except_map_eq_ok {ε β γ : Type} {x : Except ε β} {f : β → γ} {c : γ}
    (h : x.map f = .ok c) : ∃ b, x = .ok b ∧ f b = c := by
  cases x with
  | error e => cases h
  | ok b => exact ⟨b, rfl, Except.ok.inj h⟩

/-- **Runs that cannot be told apart**: the same panics, and otherwise the same view and the
same memory behind each run. -/
theorem Alike.cycles (h : Alike P P' view view') {state : σ} {state' : σ'}
    (hview : view state = view' state') (cs : List (Cycle α)) :
    (P.cycles state cs).map (List.map (Prod.map view id)) =
      (P'.cycles state' cs).map (List.map (Prod.map view' id)) := by
  induction cs generalizing state state' with
  | nil => rfl
  | cons c cs ih =>
    rw [Plugin.cycles, Plugin.cycles]
    rcases except_map_eq_map (h.cycle hview c) with ⟨panic, hr, hr'⟩ | ⟨r, r', hr, hr', heq⟩
    · rw [hr, hr']
      rfl
    · rw [hr, hr']
      simp only [bind, Except.bind]
      rcases except_map_eq_map (ih (congrArg Prod.fst heq)) with
        ⟨panic, hrs, hrs'⟩ | ⟨rs, rs', hrs, hrs', heqs⟩
      · rw [hrs, hrs']
        rfl
      · rw [hrs, hrs']
        exact congrArg Except.ok (List.cons_eq_cons.mpr ⟨heq, heqs⟩)

end Alike

end Entry
