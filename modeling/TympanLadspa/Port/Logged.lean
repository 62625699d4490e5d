import TympanLadspa.Port.Steps

/-!
# Runs that log

A `run` that also hands events to a log. What `log` returns is ignored, as in `let _ = ...`, so
that what a run comes to does not depend on what becomes of its events. `cost` is what a run
takes the thread it is on, with four steps for a call of `log`.
-/

namespace Port

variable {α ε σ τ : Type}

/-- A `run` in progress that can log. -/
inductive LogProg (α ε σ : Type)
  | done (state : σ)
  | fail (panic : Panic)
  | op (o : Op α) (next : Reply α → LogProg α ε σ)
  | log (event : ε) (next : LogProg α ε σ)

/-- A value is never had but by a load. -/
theorem Ports.resolve_ne_data (ports : Ports α) (o : Op α) (value : α) :
    ports.resolve o ≠ .ok (.reply (.data value)) := by
  intro h
  cases o with
  | frames => cases h
  | _ =>
    repeat
      obtain ⟨x, -, h⟩ := bind_eq_ok.mp h
    cases h

/-- A control that can be loaded is an input of the table. -/
theorem Ports.controlInput_of_resolve {ports : Ports α} {port : ℕ} {p : Ptr}
    (h : ports.resolve (.controlInput port) = .ok (.load p)) :
    ports.controlInput port = .ok p := by
  obtain ⟨q, hq, heq⟩ := bind_eq_ok.mp h
  cases heq
  exact hq

/-- Two slices that are lent together have the frames of the run. -/
theorem Ports.slices_of_resolve {ports : Ports α} {inPort outPort : ℕ} {r : Reply α}
    (h : ports.resolve (.audioInOut inPort outPort) = .ok (.reply r)) :
    ∃ input output, r = .slices input output ∧ input.len = ports.frames ∧
      output.len = ports.frames := by
  obtain ⟨⟨input, output⟩, hslices, heq⟩ := bind_eq_ok.mp h
  cases heq
  obtain ⟨hin, hout⟩ := audioInOut_eq_ok.mp hslices
  exact ⟨input, output, rfl, (audioInput_eq_ok.mp hin).2, (audioOutput_eq_ok.mp hout).2⟩

namespace LogProg

/-- The state a `run` returns, the events it has logged and the memory it leaves. -/
def exec (ports : Ports α) : LogProg α ε σ → Memory α → Except Panic (σ × List ε × Memory α)
  | done state, memory => .ok (state, [], memory)
  | fail panic, _ => .error panic
  | op o next, memory =>
    match ports.resolve o with
    | .error panic => .error panic
    | .ok effect => (next (effect.apply memory).1).exec ports (effect.apply memory).2
  | log event next, memory =>
    (next.exec ports memory).map fun r => (r.1, event :: r.2.1, r.2.2)

/-- One operation; `none` at a call of `log` and at the end. -/
def next (ports : Ports α) : LogProg α ε σ → Memory α → Option (LogProg α ε σ × Memory α)
  | op o rest, m =>
    match ports.resolve o with
    | .error panic => some (.fail panic, m)
    | .ok effect => some (rest (effect.apply m).1, (effect.apply m).2)
  | _, _ => none

/-- The steps of the thread a `run` is on. -/
def cost (ports : Ports α) : LogProg α ε σ → Memory α → ℕ
  | done _, _ | fail _, _ => 0
  | op o next, m =>
    match ports.resolve o with
    | .error _ => 1
    | .ok effect => (next (effect.apply m).1).cost ports (effect.apply m).2 + 1
  | log _ next, m => next.cost ports m + 4

/-- An operation that loads, and what follows the value. -/
def load (o : Op α) (next : α → LogProg α ε σ) : LogProg α ε σ :=
  .op o fun
    | .data value => next value
    | _ => .fail (.assertion "not a load")

/-- A `run` that does not log. -/
def ofProg : Prog α σ → LogProg α ε σ
  | .done state => .done state
  | .fail panic => .fail panic
  | .op o next => .op o fun reply => ofProg (next reply)

variable {ports : Ports α} {prog rest : LogProg α ε σ} {m m' : Memory α}

/-- **One operation on the way** to the same end, for one step less. -/
theorem exec_next (h : prog.next ports m = some (rest, m')) :
    prog.exec ports m = rest.exec ports m' ∧
      rest.cost ports m' + 1 ≤ prog.cost ports m := by
  cases prog with
  | op o after =>
    rw [next] at h
    rw [exec, cost]
    cases hresolve : ports.resolve o with
    | error panic =>
      rw [hresolve] at h
      cases h
      exact ⟨rfl, le_rfl⟩
    | ok effect =>
      rw [hresolve] at h
      cases h
      exact ⟨rfl, le_rfl⟩
  | _ => cases h

/-- An operation can always be made. -/
theorem exists_next (ports : Ports α) (o : Op α) (after : Reply α → LogProg α ε σ)
    (m : Memory α) :
    ∃ r, (op o after).next ports m = some r := by
  rw [next]
  cases ports.resolve o with
  | error panic => exact ⟨_, rfl⟩
  | ok effect => exact ⟨_, rfl⟩

/-- A load that succeeds is one, and what follows its value succeeds. -/
theorem exec_load_eq_ok {o : Op α} {after : α → LogProg α ε σ} {x : σ × List ε × Memory α}
    (h : (load o after).exec ports m = .ok x) :
    ∃ p, ports.resolve o = .ok (.load p) ∧ (after (m p)).exec ports m = .ok x := by
  rw [load, exec] at h
  cases hresolve : ports.resolve o with
  | error panic =>
    rw [hresolve] at h
    cases h
  | ok effect =>
    rw [hresolve] at h
    cases effect with
    | load p => exact ⟨p, rfl, h⟩
    | reply r =>
      cases r with
      | data value => exact absurd hresolve (ports.resolve_ne_data o value)
      | _ => cases h
    | store p value => cases h

/-- A `run` that logs nothing. -/
def Quiet (prog : LogProg α ε σ) : Prop :=
  ∀ ports m x, prog.exec ports m = .ok x → x.2.1 = []

theorem Quiet.op {o : Op α} {after : Reply α → LogProg α ε σ} (h : ∀ reply, (after reply).Quiet) :
    (LogProg.op o after).Quiet := by
  intro ports m x hexec
  rw [exec] at hexec
  cases hresolve : ports.resolve o with
  | error panic =>
    rw [hresolve] at hexec
    cases hexec
  | ok effect =>
    rw [hresolve] at hexec
    exact h _ ports _ x hexec

theorem quiet_fail (panic : Panic) : (fail panic : LogProg α ε σ).Quiet := nofun

theorem Quiet.load {o : Op α} {after : α → LogProg α ε σ} (h : ∀ value, (after value).Quiet) :
    (LogProg.load o after).Quiet := by
  apply Quiet.op
  intro reply
  cases reply with
  | data value => exact h value
  | _ => exact quiet_fail _

theorem quiet_ofProg (prog : Prog α σ) : (ofProg prog : LogProg α ε σ).Quiet := by
  induction prog with
  | done state =>
    rintro ports m x hexec
    cases hexec
    rfl
  | fail panic => exact quiet_fail panic
  | op o next ih => exact Quiet.op ih

/-- An operation is one step. -/
theorem cost_op_le {o : Op α} {after : Reply α → LogProg α ε σ} {k : ℕ}
    (h : ∀ reply m, (after reply).cost ports m ≤ k) (m : Memory α) :
    (op o after).cost ports m ≤ k + 1 := by
  rw [cost]
  cases ports.resolve o with
  | error panic => exact Nat.le_add_left 1 k
  | ok effect => exact Nat.add_le_add_right (h _ _) 1

theorem cost_load_le {o : Op α} {after : α → LogProg α ε σ} {k : ℕ}
    (h : ∀ value m, (after value).cost ports m ≤ k) (m : Memory α) :
    (load o after).cost ports m ≤ k + 1 := by
  apply cost_op_le
  intro reply m'
  cases reply with
  | data value => exact h value m'
  | _ => exact Nat.zero_le k

theorem cost_ofProg_map (f : σ → τ) (prog : Prog α σ) (m : Memory α) :
    (ofProg (prog.map f) : LogProg α ε τ).cost ports m =
      (ofProg prog : LogProg α ε σ).cost ports m := by
  induction prog generalizing m with
  | done state => rfl
  | fail panic => rfl
  | op o after ih =>
    rw [Prog.map, ofProg, ofProg, cost, cost]
    cases ports.resolve o with
    | error panic => rfl
    | ok effect => exact congrArg (· + 1) (ih _ _)

end LogProg

/-- A `run` without a log that comes to what a logging one does, its state made of the state
and the events there. -/
def Prog.Interprets (f : σ → List ε → τ) (prog : Prog α τ) (logging : LogProg α ε σ) : Prop :=
  ∀ ports m, prog.exec ports m =
    (logging.exec ports m).map fun r => (f r.1 r.2.1, r.2.2)

namespace Prog.Interprets

variable {f : σ → List ε → τ} {o : Op α}

theorem fail (panic : Panic) : Interprets f (.fail panic : Prog α τ) (.fail panic) :=
  fun _ _ => rfl

theorem op {next : Reply α → Prog α τ} {next' : Reply α → LogProg α ε σ}
    (h : ∀ reply, Interprets f (next reply) (next' reply)) :
    Interprets f (.op o next) (.op o next') := by
  intro ports m
  rw [exec, LogProg.exec]
  cases ports.resolve o with
  | error panic => rfl
  | ok effect => exact h _ ports _

theorem load {next : α → Prog α τ} {next' : α → LogProg α ε σ}
    (h : ∀ value, Interprets f (next value) (next' value)) :
    Interprets f (.load o next) (.load o next') := by
  apply op
  intro reply
  cases reply with
  | data value => exact h value
  | _ => exact fail _

/-- A call of `log` is no step, but the state knows of the event. -/
theorem log {event : ε} {prog : Prog α τ} {next : LogProg α ε σ}
    (h : Interprets (fun state events => f state (event :: events)) prog next) :
    Interprets f prog (.log event next) := by
  intro ports m
  rw [h ports m, LogProg.exec]
  cases next.exec ports m <;> rfl

theorem ofProg (prog : Prog α σ) :
    Interprets f (prog.map fun state => f state []) (LogProg.ofProg prog) := by
  induction prog with
  | done state => exact fun _ _ => rfl
  | fail panic => exact fail panic
  | op o next ih => exact op fun reply => ih reply

end Prog.Interprets

end Port
