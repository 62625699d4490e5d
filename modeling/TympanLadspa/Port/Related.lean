import TympanLadspa.Port.Frames

/-!
# Programs that do the same

Two programs that make the same operations, whatever the ports answer, and return states that
are related. Executed on one memory they panic alike or leave the same memory.
-/

namespace Port

variable {α σ τ σ' τ' : Type} {R : σ → τ → Prop} {R' : σ' → τ' → Prop}

namespace Prog

/-- The same operations, and related states in the end. -/
def Related (R : σ → τ → Prop) : Prog α σ → Prog α τ → Prop
  | done state, done state' => R state state'
  | fail panic, fail panic' => panic = panic'
  | op o next, op o' next' => o = o' ∧ ∀ reply, (next reply).Related R (next' reply)
  | _, _ => False

/-- Two programs like a third one. -/
theorem Related.through {S : σ' → τ → Prop} {T : σ → σ' → Prop} {prog : Prog α σ}
    {other : Prog α σ'} {prog' : Prog α τ} (h : prog.Related R prog')
    (h' : other.Related S prog')
    (hT : ∀ state state' last, R state last → S state' last → T state state') :
    prog.Related T other := by
  induction prog' generalizing prog other with
  | done last =>
    cases prog with
    | done state =>
      cases other with
      | done state' => exact hT state state' last h h'
      | fail | op => exact h'.elim
    | fail | op => exact h.elim
  | fail panic =>
    cases prog with
    | fail p =>
      cases other with
      | fail p' => exact Eq.trans h (Eq.symm h')
      | done | op => exact h'.elim
    | done | op => exact h.elim
  | op o next ih =>
    cases prog with
    | op q after =>
      cases other with
      | op q' after' =>
        exact ⟨h.1.trans h'.1.symm, fun reply => ih reply (h.2 reply) (h'.2 reply)⟩
      | done | fail => exact h'.elim
    | done | fail => exact h.elim

theorem Related.refl {S : σ → σ → Prop} (hS : ∀ state, S state state) (prog : Prog α σ) :
    prog.Related S prog := by
  induction prog with
  | done state => exact hS state
  | fail panic => exact rfl
  | op o next ih => exact ⟨rfl, ih⟩

/-- Going on with the states, on both sides. -/
theorem Related.map {f : σ → σ'} {g : τ → τ'} {prog : Prog α σ} {prog' : Prog α τ}
    (h : prog.Related R prog')
    (hmap : ∀ state state', R state state' → R' (f state) (g state')) :
    (prog.map f).Related R' (prog'.map g) := by
  induction prog generalizing prog' with
  | done state =>
    cases prog' with
    | done state' => exact hmap state state' h
    | fail | op => exact h.elim
  | fail panic =>
    cases prog' with
    | fail panic' => exact h
    | done | op => exact h.elim
  | op o next ih =>
    cases prog' with
    | op o' next' => exact ⟨h.1, fun reply => ih reply (h.2 reply)⟩
    | done | fail => exact h.elim

theorem Related.load {o : Op α} {next : α → Prog α σ} {next' : α → Prog α τ}
    (h : ∀ value, (next value).Related R (next' value)) :
    (load o next).Related R (Prog.load o next') := by
  refine ⟨rfl, fun reply => ?_⟩
  cases reply with
  | data value => exact h value
  | _ => exact rfl

theorem Related.store {o : Op α} {next : Prog α σ} {next' : Prog α τ}
    (h : next.Related R next') : (store o next).Related R (Prog.store o next') :=
  ⟨rfl, fun _ => h⟩

/-- **Executed on one memory**: the same panic, or related states and the same memory. -/
theorem Related.exec {prog : Prog α σ} {prog' : Prog α τ} (h : prog.Related R prog')
    (ports : Ports α) (m : Memory α) :
    (∃ panic, prog.exec ports m = .error panic ∧ prog'.exec ports m = .error panic) ∨
      ∃ state state' m', prog.exec ports m = .ok (state, m') ∧
        prog'.exec ports m = .ok (state', m') ∧ R state state' := by
  induction prog generalizing prog' m with
  | done state =>
    cases prog' with
    | done state' => exact .inr ⟨state, state', m, rfl, rfl, h⟩
    | fail | op => exact h.elim
  | fail panic =>
    cases prog' with
    | fail panic' => exact .inl ⟨panic, rfl, congrArg _ (Eq.symm h)⟩
    | done | op => exact h.elim
  | op o next ih =>
    cases prog' with
    | op o' next' =>
      obtain ⟨rfl, hnext⟩ := h
      rw [Prog.exec, Prog.exec]
      cases ports.resolve o with
      | error panic => exact .inl ⟨panic, rfl, rfl⟩
      | ok effect => exact ih _ (hnext _) _
    | done | fail => exact h.elim

end Prog

end Port
