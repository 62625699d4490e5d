import TympanLadspa.Foundations.Transition
import Mathlib.Logic.Function.Basic

/-!
# Linearizability through commit marks

The canonical atomic object runs every call in three moments: it is invoked, it
commits on the sequential state, it responds with the result of its commit. A
history of invocations and responses is linearizable when commit marks can be put
into it so that the atomic object accepts the whole: each call then takes effect
at one instant between its invocation and its response.
-/

namespace Linearization

variable {ι O R Q σ κ : Type*}

/-- What a history shows: the boundaries of the calls of each client. -/
inductive Event (ι O R : Type*)
  | invoke (i : ι) (op : O)
  | respond (i : ι) (res : R)
deriving Repr, DecidableEq

/-- A boundary of a call, or the instant at which the pending call of `i` commits. -/
inductive Mark (ι O R : Type*)
  | boundary (e : Event ι O R)
  | commit (i : ι)
deriving Repr, DecidableEq

def Mark.event : Mark ι O R → Option (Event ι O R)
  | .boundary e => some e
  | .commit _ => none

/-- How far the current call of one client has come. -/
inductive Phase (O R : Type*)
  | idle
  | pending (op : O)
  | done (res : R)

/-- The atomic object: the sequential state and the phase of each client. -/
structure Atomic (ι O R Q : Type*) where
  state : Q
  phase : ι → Phase O R

/-- The object before any call. -/
def Atomic.start (q : Q) : Atomic ι O R Q := ⟨q, fun _ => .idle⟩

/-- The events of a marked run are what is left of its marks without the commits. -/
theorem along_filterMap_event {step : σ → κ → Option σ} {marks : σ → κ → List (Mark ι O R)}
    {events : σ → κ → List (Event ι O R)}
    (h : ∀ s a, (marks s a).filterMap Mark.event = events s a) (s : σ) (as : List κ) :
    (Transition.along step marks s as).filterMap Mark.event =
      Transition.along step events s as := by
  induction as generalizing s with
  | nil => rfl
  | cons a as ih =>
    rw [Transition.along, Transition.along, List.filterMap_append, h]
    cases step s a with
    | none => rfl
    | some t => exact congrArg _ (ih t)

variable [DecidableEq ι]

/-- One mark of the atomic object with sequential specification `spec`. -/
inductive Step (spec : Q → O → R × Q) :
    Atomic ι O R Q → Mark ι O R → Atomic ι O R Q → Prop
  | invoke {c : Atomic ι O R Q} {i : ι} {op : O} (h : c.phase i = .idle) :
      Step spec c (.boundary (.invoke i op))
        { c with phase := Function.update c.phase i (.pending op) }
  | commit {c : Atomic ι O R Q} {i : ι} {op : O} (h : c.phase i = .pending op) :
      Step spec c (.commit i)
        ⟨(spec c.state op).2, Function.update c.phase i (.done (spec c.state op).1)⟩
  | respond {c : Atomic ι O R Q} {i : ι} {res : R} (h : c.phase i = .done res) :
      Step spec c (.boundary (.respond i res))
        { c with phase := Function.update c.phase i .idle }

/-- A sequence of marks the atomic object accepts. -/
inductive Steps (spec : Q → O → R × Q) :
    Atomic ι O R Q → List (Mark ι O R) → Atomic ι O R Q → Prop
  | nil {c : Atomic ι O R Q} : Steps spec c [] c
  | cons {c d e : Atomic ι O R Q} {m : Mark ι O R} {ms : List (Mark ι O R)}
      (h : Step spec c m d) (hs : Steps spec d ms e) : Steps spec c (m :: ms) e

/-- Commit marks can be put into the history so that the atomic object accepts it. -/
def Linearizable (spec : Q → O → R × Q) (q : Q) (history : List (Event ι O R)) : Prop :=
  ∃ marks c, marks.filterMap Mark.event = history ∧ Steps spec (.start q) marks c

variable {spec : Q → O → R × Q}

theorem Steps.single {c d : Atomic ι O R Q} {m : Mark ι O R} (h : Step spec c m d) :
    Steps spec c [m] d := .cons h .nil

theorem Steps.append {c d e : Atomic ι O R Q} {ms ns : List (Mark ι O R)}
    (h₁ : Steps spec c ms d) (h₂ : Steps spec d ns e) : Steps spec c (ms ++ ns) e := by
  induction h₁ with
  | nil => exact h₂
  | cons h _ ih => exact .cons h (ih h₂)

/-- **Simulation rule**: when every step on the way to `t` can be marked so that the
atomic object follows, the whole run to `t` can. -/
theorem Steps.of_run {step : σ → κ → Option σ} {marks : σ → κ → List (Mark ι O R)}
    {rel : σ → Atomic ι O R Q → Prop} {as : List κ} {s t : σ} {c : Atomic ι O R Q}
    (hsim : ∀ s a u c, Transition.Reaches step u t → rel s c → step s a = some u →
      ∃ d, Steps spec c (marks s a) d ∧ rel u d)
    (hrun : Transition.run step s as = some t) (hrel : rel s c) :
    ∃ d, Steps spec c (Transition.along step marks s as) d ∧ rel t d := by
  induction as generalizing s c with
  | nil =>
    cases hrun
    exact ⟨c, .nil, hrel⟩
  | cons a as ih =>
    obtain ⟨u, hu, hrest⟩ := Transition.run_cons_eq_some.mp hrun
    obtain ⟨d, hd, hrel'⟩ := hsim s a u c ⟨as, hrest⟩ hrel hu
    obtain ⟨e, he, hrel''⟩ := ih hrest hrel'
    rw [Transition.along_cons_of_step hu]
    exact ⟨e, hd.append he, hrel''⟩

end Linearization
