import TympanLadspa.Port.Lending

/-!
# Runs, one operation at a time

What `Prog.exec` does in one go, operation by operation, so that something else can happen
between two operations. An operation looks at the memory in reach only and changes it in the
outputs only; a run that has begun comes to the end that `exec` says.
-/

namespace Port

variable {α σ : Type}

/-- One operation of a `run`; `none` when it has returned or panicked. -/
def Prog.next (ports : Ports α) : Prog α σ → Memory α → Option (Prog α σ × Memory α)
  | done _, _ | fail _, _ => none
  | op o rest, m =>
    match ports.resolve o with
    | .error panic => some (.fail panic, m)
    | .ok effect => some (rest (effect.apply m).1, (effect.apply m).2)

/-- Two outcomes of a run that no one can tell apart who sees the cells of `reach` only. -/
def Agree (reach : Set Ptr) :
    Except Panic (σ × Memory α) → Except Panic (σ × Memory α) → Prop
  | .ok (state, m), .ok (state', m') => state = state' ∧ Set.EqOn m m' reach
  | .error panic, .error panic' => panic = panic'
  | _, _ => False

namespace Agree

variable {reach : Set Ptr} {x y z : Except Panic (σ × Memory α)}

theorem refl (x : Except Panic (σ × Memory α)) : Agree reach x x := by
  cases x with
  | error panic => exact rfl
  | ok r => exact ⟨rfl, Set.eqOn_refl _ _⟩

theorem symm (h : Agree reach x y) : Agree reach y x := by
  cases x <;> cases y <;> try exact h
  · exact Eq.symm h
  · exact ⟨h.1.symm, h.2.symm⟩

theorem trans (h : Agree reach x y) (h' : Agree reach y z) : Agree reach x z := by
  cases x <;> cases y <;> cases z <;> try first | exact h.elim | exact h'.elim
  · exact Eq.trans h h'
  · exact ⟨h.1.trans h'.1, h.2.trans h'.2⟩

/-- An outcome like one that returns returns the same state. -/
theorem eq_ok {state : σ} {m : Memory α} (h : Agree reach x (.ok (state, m))) :
    ∃ m', x = .ok (state, m') ∧ Set.EqOn m' m reach := by
  cases x with
  | error p => exact h.elim
  | ok r =>
    obtain ⟨state', m'⟩ := r
    obtain ⟨rfl, heq⟩ := h
    exact ⟨m', rfl, heq⟩

end Agree

namespace Slice

/-- The addresses of the elements, in order. -/
def cells (s : Slice) : List Ptr := (List.range s.len).map fun i => s.ptr + i

theorem mem_cells {s : Slice} {p : Ptr} : p ∈ s.cells ↔ p ∈ s.region := by
  obtain ⟨ptr, len⟩ := s
  rw [cells, List.mem_map]
  constructor
  · rintro ⟨i, hi, rfl⟩
    exact ⟨Nat.le_add_right _ _, Nat.add_lt_add_left (List.mem_range.mp hi) _⟩
  · rintro ⟨hle, hlt⟩
    refine ⟨p - ptr, List.mem_range.mpr ?_, ?_⟩
    · exact Nat.sub_lt_left_of_lt_add hle hlt
    · exact Nat.add_sub_cancel' hle

end Slice

namespace Ports

variable {ports : Ports α}

/-- What is declared as an output is in reach. -/
theorem outputs_subset_reach : ports.outputs ⊆ ports.reach := by
  rintro p ⟨port, -, descriptor, ptr, hdescriptor, hptr, hp⟩
  exact ⟨port, descriptor, ptr, hdescriptor, hptr, hp⟩

/-- A store goes to an output. -/
theorem resolve_store {o : Op α} {p : Ptr} {value : α}
    (h : ports.resolve o = .ok (.store p value)) : p ∈ ports.outputs := by
  cases o with
  | writeOutput port i value =>
    obtain ⟨s, hs, h⟩ := bind_eq_ok.mp h
    obtain ⟨q, hq, heq⟩ := bind_eq_ok.mp h
    cases heq
    obtain ⟨haccess, hlen⟩ := audioOutput_eq_ok.mp hs
    apply mem_outputs (.inl rfl) haccess
    rw [PortKind.cells, ← hlen]
    exact s.element_mem hq
  | writeControl port value =>
    obtain ⟨q, hq, heq⟩ := bind_eq_ok.mp h
    cases heq
    apply mem_outputs (.inr rfl) hq
    exact ⟨le_rfl, Nat.lt_succ_self _⟩
  | frames => cases h
  | _ =>
    repeat
      obtain ⟨x, -, h⟩ := bind_eq_ok.mp h
    cases h

/-- The cells of the ports of some kinds, one after the other. -/
def cellsOf (ports : Ports α) (kinds : PortKind → Bool) : List Ptr :=
  (ports.descriptors.zip ports.ptrs).flatMap fun lent =>
    if kinds lent.1.kind then (Slice.mk lent.2 (lent.1.kind.cells ports.frames)).cells else []

theorem mem_cellsOf {kinds : PortKind → Bool} {p : Ptr} :
    p ∈ ports.cellsOf kinds ↔ ∃ (port : ℕ) (descriptor : PortDescriptor α) (ptr : Ptr),
      ports.descriptors[port]? = some descriptor ∧ ports.ptrs[port]? = some ptr ∧
        kinds descriptor.kind ∧ p ∈ (Slice.mk ptr (descriptor.kind.cells ports.frames)).region := by
  rw [cellsOf, List.mem_flatMap]
  constructor
  · rintro ⟨⟨descriptor, ptr⟩, hzip, hp⟩
    obtain ⟨port, hport⟩ := List.mem_iff_getElem?.mp hzip
    rw [List.getElem?_zip_eq_some] at hport
    by_cases hkind : kinds descriptor.kind
    · rw [if_pos hkind, Slice.mem_cells] at hp
      exact ⟨port, descriptor, ptr, hport.1, hport.2, hkind, hp⟩
    · rw [if_neg hkind] at hp
      cases hp
  · rintro ⟨port, descriptor, ptr, hdescriptor, hptr, hkind, hp⟩
    refine ⟨(descriptor, ptr), List.mem_iff_getElem?.mpr ⟨port, ?_⟩, ?_⟩
    · exact List.getElem?_zip_eq_some.mpr ⟨hdescriptor, hptr⟩
    · rw [if_pos hkind, Slice.mem_cells]
      exact hp

/-- The kinds of ports a plugin writes. -/
def isOutput : PortKind → Bool
  | .audioOutput | .controlOutput => true
  | .audioInput | .controlInput => false

theorem mem_outputs_of_cellsOf {p : Ptr} : p ∈ ports.outputs → p ∈ ports.cellsOf isOutput := by
  rintro ⟨port, hkind, descriptor, ptr, hdescriptor, hptr, hp⟩
  refine mem_cellsOf.mpr ⟨port, descriptor, ptr, hdescriptor, hptr, ?_, hp⟩
  rcases hkind with ⟨d, hd, hkind⟩ | ⟨d, hd, hkind⟩
  all_goals
    rw [Option.some.inj (hdescriptor.symm.trans hd), hkind]
    rfl

/-- Whether one run writes what another reaches can be computed. -/
theorem disjoint_of_cellsOf {ports' : Ports α}
    (h : ∀ p ∈ ports.cellsOf isOutput, p ∉ ports'.cellsOf fun _ => true) :
    Disjoint ports.outputs ports'.reach := by
  rw [Set.disjoint_left]
  rintro p hp ⟨port, descriptor, ptr, hdescriptor, hptr, hmem⟩
  apply h p (mem_outputs_of_cellsOf hp)
  exact mem_cellsOf.mpr ⟨port, descriptor, ptr, hdescriptor, hptr, rfl, hmem⟩

end Ports

/-- An access leaves the cells that are no outputs alone. -/
theorem Effect.apply_frame {ports : Ports α} {o : Op α} {effect : Effect α} {m : Memory α}
    (h : ports.resolve o = .ok effect) {p : Ptr} (hp : p ∉ ports.outputs) :
    (effect.apply m).2 p = m p := by
  cases effect with
  | reply r => rfl
  | load ptr => rfl
  | store ptr value =>
    have hne : p ≠ ptr := fun heq => hp (heq ▸ Ports.resolve_store h)
    exact Function.update_of_ne hne value m

namespace Prog

variable {ports : Ports α} {prog rest : Prog α σ} {m m' : Memory α}

/-- What one operation does: it panics, or makes its access. -/
theorem next_cases (h : prog.next ports m = some (rest, m')) :
    ∃ o after, prog = .op o after ∧
      ((∃ panic, ports.resolve o = .error panic ∧ rest = .fail panic ∧ m' = m) ∨
        ∃ effect, ports.resolve o = .ok effect ∧ rest = after (effect.apply m).1 ∧
          m' = (effect.apply m).2) := by
  cases prog with
  | done state => cases h
  | fail panic => cases h
  | op o after =>
    refine ⟨o, after, rfl, ?_⟩
    rw [next] at h
    cases hresolve : ports.resolve o with
    | error panic =>
      rw [hresolve] at h
      cases h
      exact .inl ⟨panic, rfl, rfl, rfl⟩
    | ok effect =>
      rw [hresolve] at h
      cases h
      exact .inr ⟨effect, rfl, rfl, rfl⟩

/-- **One operation on the way** to the same end. -/
theorem exec_next (h : prog.next ports m = some (rest, m')) :
    prog.exec ports m = rest.exec ports m' := by
  obtain ⟨o, after, rfl, ⟨panic, hresolve, rfl, rfl⟩ | ⟨effect, hresolve, rfl, rfl⟩⟩ :=
    next_cases h
  · simp only [exec, hresolve]
  · simp only [exec, hresolve]

/-- One operation leaves the cells that are no outputs alone. -/
theorem next_frame (h : prog.next ports m = some (rest, m')) {p : Ptr}
    (hp : p ∉ ports.outputs) : m' p = m p := by
  obtain ⟨o, after, rfl, ⟨panic, hresolve, rfl, rfl⟩ | ⟨effect, hresolve, rfl, rfl⟩⟩ :=
    next_cases h
  · rfl
  · exact Effect.apply_frame hresolve hp

/-- **Frame.** A run leaves the cells that are no outputs alone. -/
theorem exec_frame {state : σ} (h : prog.exec ports m = .ok (state, m')) {p : Ptr}
    (hp : p ∉ ports.outputs) : m' p = m p := by
  induction prog generalizing m with
  | done s =>
    cases h
    rfl
  | fail panic => cases h
  | op o after ih =>
    obtain ⟨effect, hresolve, hafter⟩ := exec_op_eq_ok.mp h
    rw [ih _ hafter, Effect.apply_frame hresolve hp]

/-- On memories that agree in reach a run comes to outcomes that agree there, panics
included. -/
theorem exec_agree (prog : Prog α σ) (h : Set.EqOn m m' ports.reach) :
    Agree ports.reach (prog.exec ports m) (prog.exec ports m') := by
  induction prog generalizing m m' with
  | done state => exact ⟨rfl, h⟩
  | fail panic => exact rfl
  | op o after ih =>
    rw [exec, exec]
    cases hresolve : ports.resolve o with
    | error panic => exact rfl
    | ok effect =>
      obtain ⟨hreply, hmem⟩ := Effect.apply_congr (Ports.resolve_mem hresolve).1 h
      change Agree _ ((after (effect.apply m).1).exec ports _) _
      rw [hreply]
      exact ih _ hmem

end Prog

end Port
