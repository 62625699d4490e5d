import TympanLadspa.Port.Steps

/-!
# Loops over frames

Programs in sequence, and the loop that a `run` makes over its frames. What one frame does is
at its own index of the slices, so the last frames of a run are the frames of a run whose
slices begin later.
-/

namespace Port

variable {α σ τ υ : Type}

namespace Prog

/-- Go on with another program from the state a program returns. -/
def bind (next : σ → Prog α τ) : Prog α σ → Prog α τ
  | done state => next state
  | fail panic => .fail panic
  | op o rest => .op o fun reply => (rest reply).bind next

theorem exec_bind (ports : Ports α) (next : σ → Prog α τ) (prog : Prog α σ) (m : Memory α) :
    (prog.bind next).exec ports m =
      (prog.exec ports m).bind fun r => (next r.1).exec ports r.2 := by
  induction prog generalizing m with
  | done state => rfl
  | fail panic => rfl
  | op o rest ih =>
    rw [bind, exec, exec]
    cases ports.resolve o with
    | error panic => rfl
    | ok effect => exact ih _ _

theorem bind_assoc (next : σ → Prog α τ) (last : τ → Prog α υ) (prog : Prog α σ) :
    (prog.bind next).bind last = prog.bind fun state => (next state).bind last := by
  induction prog with
  | done state => rfl
  | fail panic => rfl
  | op o rest ih => exact congrArg (Prog.op o) (funext fun reply => ih reply)

/-- Go past a load. -/
theorem bind_load {o : Op α} {rest : α → Prog α σ} {next : σ → Prog α τ} :
    (load o rest).bind next = load o fun value => (rest value).bind next := by
  apply congrArg (Prog.op o)
  funext reply
  cases reply <;> rfl

theorem bind_store {o : Op α} {rest : Prog α σ} {next : σ → Prog α τ} :
    (store o rest).bind next = store o (rest.bind next) := rfl

/-- The loop over `n` frames from `i` on. -/
def loop (body : ℕ → σ → Prog α σ) : ℕ → ℕ → σ → Prog α σ
  | 0, _, state => .done state
  | n + 1, i, state => (body i state).bind (loop body n (i + 1))

/-- **A loop in two parts**. -/
theorem loop_add (body : ℕ → σ → Prog α σ) (n k i : ℕ) (state : σ) :
    loop body (n + k) i state = (loop body n i state).bind (loop body k (i + n)) := by
  induction n generalizing i state with
  | zero =>
    rw [Nat.zero_add]
    rfl
  | succ n ih =>
    rw [Nat.add_right_comm, loop, loop, bind_assoc]
    congr 1
    funext next
    rw [ih, Nat.add_assoc, Nat.add_comm 1 n]

end Prog

-- ════════════════════════════════════════════════════════════════════════
-- Frames further on
-- ════════════════════════════════════════════════════════════════════════

/-- The operation `k` frames further on. -/
def Op.shift (k : ℕ) : Op α → Op α
  | .readInput port i => .readInput port (i + k)
  | .readOutput port i => .readOutput port (i + k)
  | .writeOutput port i value => .writeOutput port (i + k) value
  | o => o

/-- An access to an element, at a frame before `n`. -/
def Op.Before (n : ℕ) : Op α → Prop
  | .readInput _ i | .readOutput _ i | .writeOutput _ i _ => i < n
  | _ => False

namespace Prog

def shift (k : ℕ) : Prog α σ → Prog α σ
  | done state => .done state
  | fail panic => .fail panic
  | op o next => .op (o.shift k) fun reply => (next reply).shift k

/-- All that a program does is at frames before `n`. -/
def Before (n : ℕ) : Prog α σ → Prop
  | done _ => True
  | fail _ => True
  | op o next => o.Before n ∧ ∀ reply, (next reply).Before n

theorem Before.mono {n k : ℕ} {prog : Prog α σ} (h : prog.Before n) (hle : n ≤ k) :
    prog.Before k := by
  induction prog with
  | done state => trivial
  | fail panic => trivial
  | op o next ih =>
    obtain ⟨ho, hnext⟩ := h
    refine ⟨?_, fun reply => ih reply (hnext reply)⟩
    cases o with
    | readInput | readOutput | writeOutput => exact Nat.lt_of_lt_of_le ho hle
    | _ => exact ho.elim

theorem Before.bind {n : ℕ} {prog : Prog α σ} {next : σ → Prog α τ} (h : prog.Before n)
    (hnext : ∀ state, (next state).Before n) : (prog.bind next).Before n := by
  induction prog with
  | done state => exact hnext state
  | fail panic => trivial
  | op o rest ih => exact ⟨h.1, fun reply => ih reply (h.2 reply)⟩

theorem Before.load {n : ℕ} {o : Op α} {next : α → Prog α σ} (ho : o.Before n)
    (h : ∀ value, (next value).Before n) : (load o next).Before n := by
  refine ⟨ho, fun reply => ?_⟩
  cases reply with
  | data value => exact h value
  | _ => trivial

theorem Before.store {n : ℕ} {o : Op α} {next : Prog α σ} (ho : o.Before n)
    (h : next.Before n) : (store o next).Before n :=
  ⟨ho, fun _ => h⟩

theorem shift_bind (k : ℕ) (next : σ → Prog α τ) (prog : Prog α σ) :
    (prog.bind next).shift k = (prog.shift k).bind fun state => (next state).shift k := by
  induction prog with
  | done state => rfl
  | fail panic => rfl
  | op o rest ih => exact congrArg (Prog.op (o.shift k)) (funext fun reply => ih reply)

theorem shift_load (k : ℕ) {o : Op α} {next : α → Prog α σ} :
    (load o next).shift k = load (o.shift k) fun value => (next value).shift k := by
  apply congrArg (Prog.op (o.shift k))
  funext reply
  cases reply <;> rfl

theorem shift_store (k : ℕ) {o : Op α} {next : Prog α σ} :
    (store o next).shift k = store (o.shift k) (next.shift k) := rfl

section Loop

variable {body : ℕ → σ → Prog α σ}

/-- The frames of a loop, further on. -/
theorem shift_loop {k : ℕ} (hshift : ∀ i state, (body i state).shift k = body (i + k) state)
    (n i : ℕ) (state : σ) : (loop body n i state).shift k = loop body n (i + k) state := by
  induction n generalizing i state with
  | zero => rfl
  | succ n ih =>
    rw [loop, loop, shift_bind, hshift]
    congr 1
    funext next
    rw [ih, Nat.add_right_comm]

theorem before_loop (hbefore : ∀ i state, (body i state).Before (i + 1)) (n i : ℕ) (state : σ) :
    (loop body n i state).Before (i + n) := by
  induction n generalizing i state with
  | zero => trivial
  | succ n ih =>
    refine ((hbefore i state).mono (by omega)).bind fun next => ?_
    rw [show i + (n + 1) = i + 1 + n by omega]
    exact ih (i + 1) next

end Loop

end Prog

-- ════════════════════════════════════════════════════════════════════════
-- What comes before the loop
-- ════════════════════════════════════════════════════════════════════════

/-- The value of a control input. -/
def Ports.controlValue (ports : Ports α) (m : Memory α) (port : ℕ) : Except Panic α :=
  (ports.controlInput port).map m

theorem Ports.controlValue_congr {ports ports' : Ports α} {m m' : Memory α} {port : ℕ}
    (hport : ports'.controlInput port = ports.controlInput port)
    (hm : ∀ ptr, ports.controlInput port = .ok ptr → m' ptr = m ptr) :
    ports'.controlValue m' port = ports.controlValue m port := by
  unfold controlValue
  rw [hport]
  cases hptr : ports.controlInput port with
  | error panic => rfl
  | ok ptr => exact congrArg Except.ok (hm ptr hptr)

namespace Prog

variable {ports : Ports α} {m : Memory α}

theorem exec_control (port : ℕ) (next : Reply α → Prog α σ) :
    (op (.controlInput port) next).exec ports m =
      (ports.controlValue m port).bind fun value => (next (.data value)).exec ports m := by
  unfold Ports.controlValue
  rw [exec, Ports.resolve]
  cases ports.controlInput port <;> rfl

/-- An element is read, or there is none. -/
theorem exec_readInput (port i : ℕ) (next : Reply α → Prog α σ) :
    (op (.readInput port i) next).exec ports m =
      ((ports.audioInput port).bind fun s => s.element i).bind fun ptr =>
        (next (.data (m ptr))).exec ports m := by
  have hresolve : ports.resolve (.readInput port i) =
      ((ports.audioInput port).bind fun s => s.element i).map .load := by
    rw [Ports.resolve]
    cases ports.audioInput port with
    | error panic => rfl
    | ok s =>
      change (s.element i).bind _ = (s.element i).map _
      cases s.element i <;> rfl
  rw [exec, hresolve]
  cases (ports.audioInput port).bind fun s => s.element i <;> rfl

/-- Two slices are lent, each with the frames of the run, or there is a panic. -/
theorem exec_inOut {inPort outPort : ℕ} {next : Reply α → Prog α σ}
    {r : Except Panic (σ × Memory α)}
    (h : ∀ input output : Slice, input.len = ports.frames → output.len = ports.frames →
      (next (.slices input output)).exec ports m = r) :
    (op (.audioInOut inPort outPort) next).exec ports m =
      (ports.audioInOut inPort outPort).bind fun _ => r := by
  rw [exec, Ports.resolve]
  cases hslices : ports.audioInOut inPort outPort with
  | error panic => rfl
  | ok slices =>
    obtain ⟨hin, hout⟩ := Ports.audioInOut_eq_ok.mp hslices
    exact h slices.1 slices.2 (Ports.audioInput_eq_ok.mp hin).2 (Ports.audioOutput_eq_ok.mp hout).2

end Prog

/-- The second ports see what the first do from frame `k` on. -/
structure Ports.Sees (ports : Ports α) (k : ℕ) (ports' : Ports α) : Prop where
  frames : ports'.frames + k ≤ ports.frames
  input : ∀ port, ports'.access port .audioInput =
    (ports.access port .audioInput).map (· + k)
  output : ∀ port, ports'.access port .audioOutput =
    (ports.access port .audioOutput).map (· + k)
  control : ∀ port, ports'.controlInput port = ports.controlInput port

namespace Ports.Sees

variable {ports ports' : Ports α} {k : ℕ}

theorem element {ptr frames frames' i : ℕ} (hframes : frames' + k ≤ frames) (hi : i < frames') :
    (Slice.mk (ptr + k) frames').element i = (Slice.mk ptr frames).element (i + k) := by
  rw [Slice.element_of_lt hi, Slice.element_of_lt (show i + k < frames by omega)]
  show Except.ok (ptr + k + i) = Except.ok (ptr + (i + k))
  congr 1
  omega

theorem map_add_eq_ok {x : Except Panic Ptr} {k : ℕ} :
    (∃ p, x.map (· + k) = .ok p) ↔ ∃ p, x = .ok p := by
  cases x with
  | error panic => exact iff_of_false (by rintro ⟨p, ⟨⟩⟩) (by rintro ⟨p, ⟨⟩⟩)
  | ok p => exact iff_of_true ⟨p + k, rfl⟩ ⟨p, rfl⟩

/-- What lends two slices lends two further on. -/
theorem inOut (h : ports.Sees k ports') (inPort outPort : ℕ) :
    (∃ slices, ports'.audioInOut inPort outPort = .ok slices) ↔
      ∃ slices, ports.audioInOut inPort outPort = .ok slices := by
  have haccess : ∀ ports : Ports α, (∃ slices, ports.audioInOut inPort outPort = .ok slices) ↔
      (∃ p, ports.access inPort .audioInput = .ok p) ∧
        ∃ p, ports.access outPort .audioOutput = .ok p := by
    intro ports
    constructor
    · rintro ⟨⟨input, output⟩, hslices⟩
      obtain ⟨hin, hout⟩ := audioInOut_eq_ok.mp hslices
      exact ⟨⟨_, (audioInput_eq_ok.mp hin).1⟩, ⟨_, (audioOutput_eq_ok.mp hout).1⟩⟩
    · rintro ⟨⟨p, hin⟩, ⟨q, hout⟩⟩
      exact ⟨(⟨p, _⟩, ⟨q, _⟩), audioInOut_eq_ok.mpr
        ⟨audioInput_eq_ok.mpr ⟨hin, rfl⟩, audioOutput_eq_ok.mpr ⟨hout, rfl⟩⟩⟩
  rw [haccess, haccess, h.input, h.output, map_add_eq_ok, map_add_eq_ok]

/-- An access at a frame is one further on. -/
theorem resolve (h : ports.Sees k ports') {o : Op α} (ho : o.Before ports'.frames) :
    ports'.resolve o = ports.resolve (o.shift k) := by
  cases o with
  | readInput port i =>
    simp only [Op.shift, Ports.resolve, Ports.audioInput, h.input port]
    cases ports.access port .audioInput with
    | error panic => rfl
    | ok ptr =>
      exact congrArg (fun x : Except Panic Ptr => x >>= fun p => pure (Effect.load p))
        (element h.frames ho)
  | readOutput port i =>
    simp only [Op.shift, Ports.resolve, Ports.audioOutput, h.output port]
    cases ports.access port .audioOutput with
    | error panic => rfl
    | ok ptr =>
      exact congrArg (fun x : Except Panic Ptr => x >>= fun p => pure (Effect.load p))
        (element h.frames ho)
  | writeOutput port i value =>
    simp only [Op.shift, Ports.resolve, Ports.audioOutput, h.output port]
    cases ports.access port .audioOutput with
    | error panic => rfl
    | ok ptr =>
      exact congrArg (fun x : Except Panic Ptr => x >>= fun p => pure (Effect.store p value))
        (element h.frames ho)
  | _ => exact ho.elim

/-- **A program further on** is the program on ports that begin there. -/
theorem exec (h : ports.Sees k ports') {prog : Prog α σ} (hprog : prog.Before ports'.frames)
    (m : Memory α) : prog.exec ports' m = (prog.shift k).exec ports m := by
  induction prog generalizing m with
  | done state => rfl
  | fail panic => rfl
  | op o next ih =>
    rw [Prog.exec, Prog.shift, Prog.exec, h.resolve hprog.1]
    cases ports.resolve (o.shift k) with
    | error panic => rfl
    | ok effect => exact ih _ (hprog.2 _) _

end Ports.Sees

end Port
