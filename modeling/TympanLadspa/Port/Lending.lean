import TympanLadspa.Port.Access

/-!
# What the accessors lend

A plugin calls the accessors in any order and keeps what they lend: slices it can read,
and slices and cells it can write. The borrow checker lets it keep less. When the regions of
the ports are apart, all that changes in memory is what was lent to be written, and that is
in the outputs; the inputs stay as the host left them.
-/

namespace Port

variable {α : Type}

/-- Something lent: `&[Data]`, or `&mut [Data]` and `&mut Data`. -/
inductive View
  | shared (s : Slice)
  | exclusive (s : Slice)
deriving Repr, DecidableEq

def View.slice : View → Slice
  | shared s => s
  | exclusive s => s

/-- A `run` in progress: the memory of the host and everything lent so far. -/
structure Session (α : Type) where
  memory : Memory α
  views : List View

/-- A call of an accessor, or an access through something lent. -/
inductive Action (α : Type)
  | audioInput (port : ℕ)
  | audioOutput (port : ℕ)
  | controlInput (port : ℕ)
  | controlOutput (port : ℕ)
  | audioInOut (inPort outPort : ℕ)
  | read (view i : ℕ)
  | write (view i : ℕ) (value : α)

/-- An element is there exactly below the length. -/
theorem Slice.element_eq_ok {s : Slice} {i : ℕ} {p : Ptr} :
    s.element i = .ok p ↔ i < s.len ∧ p = s.ptr + i := by
  unfold element
  split
  · rename_i hi
    simp [hi, eq_comm]
  · rename_i hi
    simp [hi]

/-- Slices that share a cell overlap. -/
theorem Slice.share_cell {s t : Slice} {p : Ptr} (hs : p ∈ s.region) (ht : p ∈ t.region) :
    s.ptr < t.ptr + t.len ∧ t.ptr < s.ptr + s.len :=
  ⟨hs.1.trans_lt ht.2, ht.1.trans_lt hs.2⟩

namespace Session

def lend (s : Session α) (views : List View) : Session α := { s with views := s.views ++ views }

/-- Go on when a check succeeds; a panic leaves everything as it is. -/
def attempt {β : Type} (s : Session α) (x : Except Panic β) (next : β → Reply α × Session α) :
    Except Panic (Reply α) × Session α :=
  match x with
  | .error panic => (.error panic, s)
  | .ok b => (.ok (next b).1, (next b).2)

/-- What an action answers, and what it leaves. -/
def act (ports : Ports α) (s : Session α) : Action α → Except Panic (Reply α) × Session α
  | .audioInput port =>
    s.attempt (ports.audioInput port) fun input => (.slice input, s.lend [.shared input])
  | .audioOutput port =>
    s.attempt (ports.audioOutput port) fun output => (.slice output, s.lend [.exclusive output])
  | .controlInput port =>
    s.attempt (ports.controlInput port) fun ptr => (.data (s.memory ptr), s)
  | .controlOutput port =>
    s.attempt (ports.controlOutput port) fun ptr => (.cell ptr, s.lend [.exclusive ⟨ptr, 1⟩])
  | .audioInOut inPort outPort =>
    s.attempt (ports.audioInOut inPort outPort) fun (input, output) =>
      (.slices input output, s.lend [.shared input, .exclusive output])
  | .read view i =>
    match s.views[view]? with
    | some v => s.attempt (v.slice.element i) fun ptr => (.data (s.memory ptr), s)
    | none => (.error (.assertion "not lent"), s)
  | .write view i value =>
    match s.views[view]? with
    | some (.exclusive slice) =>
      s.attempt (slice.element i) fun ptr =>
        (.done, { s with memory := Function.update s.memory ptr value })
    | _ => (.error (.assertion "not lent to be written"), s)

/-- The session behind a sequence of actions. -/
def after (ports : Ports α) (s : Session α) (as : List (Action α)) : Session α :=
  as.foldl (fun s a => (s.act ports a).2) s

theorem lend_lend (s : Session α) (vs ws : List View) :
    (s.lend vs).lend ws = s.lend (vs ++ ws) := by
  rw [lend, lend, lend, List.append_assoc]

theorem attempt_eq_ok {β : Type} {s : Session α} {x : Except Panic β}
    {next : β → Reply α × Session α} {reply : Reply α} :
    (s.attempt x next).1 = .ok reply ↔ ∃ b, x = .ok b ∧ (next b).1 = reply := by
  cases x with
  | error panic => exact iff_of_false nofun nofun
  | ok b => simp [attempt]

end Session

namespace Ports

/-- The port is in the table, with the kind. -/
def HasKind (ports : Ports α) (port : ℕ) (kind : PortKind) : Prop :=
  ∃ descriptor, ports.descriptors[port]? = some descriptor ∧ descriptor.kind = kind

/-- The cells a port is bound to: `frames` of them for audio, one for a control. -/
def region (ports : Ports α) (port : ℕ) : Set Ptr :=
  {p | ∃ descriptor ptr, ports.descriptors[port]? = some descriptor ∧
    ports.ptrs[port]? = some ptr ∧ p ∈ (Slice.mk ptr (descriptor.kind.cells ports.frames)).region}

/-- No two ports share a cell. -/
def Apart (ports : Ports α) : Prop :=
  ∀ i j, i ≠ j → Disjoint (ports.region i) (ports.region j)

/-- The cells of the ports declared as outputs. -/
def outputs (ports : Ports α) : Set Ptr :=
  {p | ∃ port, (ports.HasKind port .audioOutput ∨ ports.HasKind port .controlOutput) ∧
    p ∈ ports.region port}

/-- A call with an index or a pair of indices that is not right for it. -/
def Wrong (ports : Ports α) : Action α → Prop
  | .audioInput port => ¬ ports.HasKind port .audioInput
  | .audioOutput port => ¬ ports.HasKind port .audioOutput
  | .controlInput port => ¬ ports.HasKind port .controlInput
  | .controlOutput port => ¬ ports.HasKind port .controlOutput
  | .audioInOut inPort outPort =>
    inPort = outPort ∨ ¬ ports.HasKind inPort .audioInput ∨ ¬ ports.HasKind outPort .audioOutput
  | .read _ _ | .write _ _ _ => False

variable {ports : Ports α} {port : ℕ} {kind : PortKind} {p : Ptr}

theorem hasKind_of_access (h : ports.access port kind = .ok p) :
    ports.HasKind port kind := (access_eq_ok.mp h).1

theorem HasKind.unique {kind' : PortKind} (h : ports.HasKind port kind)
    (h' : ports.HasKind port kind') : kind = kind' := by
  obtain ⟨d, hd, rfl⟩ := h
  obtain ⟨e, he, rfl⟩ := h'
  rw [Option.some.inj (hd.symm.trans he)]

/-- With a pointer for each port, the kind is all that is checked. -/
theorem HasKind.access (hlen : ports.ptrs.length = ports.descriptors.length)
    (h : ports.HasKind port kind) : ∃ ptr, ports.access port kind = .ok ptr := by
  obtain ⟨d, hd, hkind⟩ := h
  have hport : port < ports.ptrs.length := by
    rw [hlen]
    exact (List.getElem?_eq_some_iff.mp hd).1
  exact ⟨_, access_eq_ok.mpr ⟨⟨d, hd, hkind⟩, List.getElem?_eq_getElem hport⟩⟩

/-- A pointer that passed the checks starts the region of its port. -/
theorem region_of_access (h : ports.access port kind = .ok p) :
    (Slice.mk p (kind.cells ports.frames)).region = ports.region port := by
  obtain ⟨⟨d, hd, rfl⟩, hptr⟩ := access_eq_ok.mp h
  ext q
  constructor
  · intro hq
    exact ⟨d, p, hd, hptr, hq⟩
  · rintro ⟨e, ptr, he, hptr', hq⟩
    rw [Option.some.inj (hd.symm.trans he), Option.some.inj (hptr.symm.trans hptr')]
    exact hq

theorem mem_outputs (hkind : kind = .audioOutput ∨ kind = .controlOutput)
    (h : ports.access port kind = .ok p) :
    (Slice.mk p (kind.cells ports.frames)).region ⊆ ports.outputs := by
  intro q hq
  rw [region_of_access h] at hq
  refine ⟨port, ?_, hq⟩
  rcases hkind with rfl | rfl
  · exact .inl (hasKind_of_access h)
  · exact .inr (hasKind_of_access h)

/-- **Inputs are no outputs** when the ports are apart. -/
theorem Apart.notMem_outputs (hapart : ports.Apart) {q : Ptr}
    (hkind : kind = .audioInput ∨ kind = .controlInput) (h : ports.access port kind = .ok p)
    (hq : q ∈ (Slice.mk p (kind.cells ports.frames)).region) : q ∉ ports.outputs := by
  rintro ⟨port', hkind', hq'⟩
  rw [region_of_access h] at hq
  have hne : port ≠ port' := by
    rintro rfl
    have hdeclared := hasKind_of_access h
    rcases hkind with rfl | rfl <;> rcases hkind' with h' | h'
    all_goals cases hdeclared.unique h'
  exact Set.disjoint_left.mp (hapart port port' hne) hq hq'

end Ports

/-- Two slices at once are lent exactly for an input and an output. -/
theorem Ports.audioInOut_iff {ports : Ports α} {inPort outPort : ℕ}
    (hlen : ports.ptrs.length = ports.descriptors.length) :
    (∃ slices, ports.audioInOut inPort outPort = .ok slices) ↔
      ports.HasKind inPort .audioInput ∧ ports.HasKind outPort .audioOutput := by
  constructor
  · rintro ⟨⟨input, output⟩, h⟩
    obtain ⟨hin, hout⟩ := audioInOut_eq_ok.mp h
    exact ⟨hasKind_of_access (audioInput_eq_ok.mp hin).1,
      hasKind_of_access (audioOutput_eq_ok.mp hout).1⟩
  · rintro ⟨hin, hout⟩
    obtain ⟨inPtr, hinPtr⟩ := hin.access hlen
    obtain ⟨outPtr, houtPtr⟩ := hout.access hlen
    exact ⟨(⟨inPtr, _⟩, ⟨outPtr, _⟩), audioInOut_eq_ok.mpr
      ⟨audioInput_eq_ok.mpr ⟨hinPtr, rfl⟩, audioOutput_eq_ok.mpr ⟨houtPtr, rfl⟩⟩⟩

/-- What an accessor asks of the ports; an access through something lent asks nothing. -/
def Action.op? : Action α → Option (Op α)
  | .audioInput port => some (.audioInput port)
  | .audioOutput port => some (.audioOutput port)
  | .controlInput port => some (.controlInput port)
  | .controlOutput port => some (.controlOutput port)
  | .audioInOut inPort outPort => some (.audioInOut inPort outPort)
  | .read _ _ | .write _ _ _ => none

/-- Every slice of a reply has length `n`. -/
def Reply.OfLength (n : ℕ) : Reply α → Prop
  | .slice s => s.len = n
  | .slices input output => input.len = n ∧ output.len = n
  | _ => True

namespace Session

variable {ports : Ports α} {m₀ : Memory α} {s : Session α} {a : Action α} {reply : Reply α}

/-- Memory is as it was outside the outputs, what was lent to be read are inputs, and what was
lent to be written lies in the outputs. -/
structure Sound (ports : Ports α) (m₀ : Memory α) (s : Session α) : Prop where
  memory : ∀ p ∉ ports.outputs, s.memory p = m₀ p
  shared : ∀ slice, .shared slice ∈ s.views → ∃ port, ports.audioInput port = .ok slice
  exclusive : ∀ slice, .exclusive slice ∈ s.views → slice.region ⊆ ports.outputs

theorem sound_start (ports : Ports α) (m₀ : Memory α) : Sound ports m₀ ⟨m₀, []⟩ where
  memory _ _ := rfl
  shared _ h := nomatch h
  exclusive _ h := nomatch h

/-- What is lent keeps the session sound: an input to be read, a part of the outputs to be
written. -/
theorem Sound.lend {view : View} (hs : Sound ports m₀ s)
    (hshared : ∀ slice, view = .shared slice → ∃ port, ports.audioInput port = .ok slice)
    (hexclusive : ∀ slice, view = .exclusive slice → slice.region ⊆ ports.outputs) :
    Sound ports m₀ (s.lend [view]) where
  memory := hs.memory
  shared slice hmem := by
    rcases List.mem_append.mp hmem with hmem | hmem
    · exact hs.shared slice hmem
    · exact hshared slice (List.mem_singleton.mp hmem).symm
  exclusive slice hmem := by
    rcases List.mem_append.mp hmem with hmem | hmem
    · exact hs.exclusive slice hmem
    · exact hexclusive slice (List.mem_singleton.mp hmem).symm

theorem Sound.lend_shared {slice : Slice} {port : ℕ} (hs : Sound ports m₀ s)
    (h : ports.audioInput port = .ok slice) : Sound ports m₀ (s.lend [.shared slice]) := by
  refine hs.lend ?_ nofun
  intro slice' heq
  cases heq
  exact ⟨port, h⟩

theorem Sound.lend_exclusive {slice : Slice} (hs : Sound ports m₀ s)
    (h : slice.region ⊆ ports.outputs) : Sound ports m₀ (s.lend [.exclusive slice]) := by
  refine hs.lend nofun ?_
  intro slice' heq
  cases heq
  exact h

/-- An output can be written. -/
theorem Sound.store {p : Ptr} {value : α} (hs : Sound ports m₀ s) (hp : p ∈ ports.outputs) :
    Sound ports m₀ { s with memory := Function.update s.memory p value } where
  memory q hq := by
    have hne : q ≠ p := (ne_of_mem_of_not_mem hp hq).symm
    exact (Function.update_of_ne hne _ _).trans (hs.memory q hq)
  shared := hs.shared
  exclusive := hs.exclusive

/-- The slice of an audio output lies in the outputs. -/
theorem output_region {port : ℕ} {slice : Slice} (h : ports.audioOutput port = .ok slice) :
    slice.region ⊆ ports.outputs := by
  obtain ⟨haccess, hlen⟩ := Ports.audioOutput_eq_ok.mp h
  obtain ⟨ptr, len⟩ := slice
  subst hlen
  exact Ports.mem_outputs (.inl rfl) haccess

/-- A check leaves the session sound when what follows its success does. -/
theorem Sound.attempt {β : Type} {x : Except Panic β} {next : β → Reply α × Session α}
    (hs : Sound ports m₀ s) (h : ∀ b, x = .ok b → Sound ports m₀ (next b).2) :
    Sound ports m₀ (s.attempt x next).2 := by
  cases x with
  | error panic => exact hs
  | ok b => exact h b rfl

/-- **Step.** Whatever a plugin does with its ports, the session stays sound. -/
theorem Sound.act (hs : Sound ports m₀ s) (a : Action α) :
    Sound ports m₀ (s.act ports a).2 := by
  cases a with
  | audioInput port => exact hs.attempt fun input h => hs.lend_shared h
  | audioOutput port => exact hs.attempt fun output h => hs.lend_exclusive (output_region h)
  | controlInput port => exact hs.attempt fun _ _ => hs
  | controlOutput port =>
    exact hs.attempt fun ptr h => hs.lend_exclusive (Ports.mem_outputs (.inr rfl) h)
  | audioInOut inPort outPort =>
    refine hs.attempt ?_
    rintro ⟨input, output⟩ h
    obtain ⟨hin, hout⟩ := Ports.audioInOut_eq_ok.mp h
    have h' := (hs.lend_shared hin).lend_exclusive (output_region hout)
    rwa [lend_lend] at h'
  | read view i =>
    rw [Session.act]
    split
    · exact hs.attempt fun _ _ => hs
    · exact hs
  | write view i value =>
    rw [Session.act]
    split
    · rename_i slice hview
      refine hs.attempt fun p hp => hs.store ?_
      exact hs.exclusive slice (List.mem_of_getElem? hview) (Slice.element_mem hp)
    · exact hs

/-- **Run.** The session is sound behind any sequence of actions. -/
theorem Sound.after (hs : Sound ports m₀ s) (as : List (Action α)) :
    Sound ports m₀ (s.after ports as) := by
  induction as generalizing s with
  | nil => exact hs
  | cons a as ih => exact ih (hs.act a)

/-- A call of an accessor answers as the operation of a `run` does. -/
theorem act_op {o : Op α} (h : a.op? = some o) :
    (s.act ports a).1 = (ports.resolve o).map (fun e => (e.apply s.memory).1) ∧
      (s.act ports a).2.memory = s.memory := by
  cases a with
  | read view i => cases h
  | write view i value => cases h
  | audioInput port =>
    cases h
    rw [act, Ports.resolve]
    cases ports.audioInput port <;> exact ⟨rfl, rfl⟩
  | audioOutput port =>
    cases h
    rw [act, Ports.resolve]
    cases ports.audioOutput port <;> exact ⟨rfl, rfl⟩
  | controlInput port =>
    cases h
    rw [act, Ports.resolve]
    cases ports.controlInput port <;> exact ⟨rfl, rfl⟩
  | controlOutput port =>
    cases h
    rw [act, Ports.resolve]
    cases ports.controlOutput port <;> exact ⟨rfl, rfl⟩
  | audioInOut inPort outPort =>
    cases h
    rw [act, Ports.resolve]
    cases ports.audioInOut inPort outPort <;> exact ⟨rfl, rfl⟩

/-- Whatever the plugin does next, a view shows the cells of a slice as the host stored them. -/
def Shows (ports : Ports α) (m₀ : Memory α) (s : Session α) (view : ℕ) (slice : Slice) : Prop :=
  ∀ as i, ((s.after ports as).act ports (.read view i)).1 =
    (slice.element i).map fun p => .data (m₀ p)

/-- Whatever the plugin does next, a view reads and writes the cells of a slice and no others. -/
structure Takes (ports : Ports α) (s : Session α) (view : ℕ) (slice : Slice) : Prop where
  read : ∀ as i, ((s.after ports as).act ports (.read view i)).1 =
    (slice.element i).map fun p => .data ((s.after ports as).memory p)
  write : ∀ as i value, i < slice.len → (s.after ports as).act ports (.write view i value) =
    (.ok .done, { s.after ports as with
      memory := Function.update (s.after ports as).memory (slice.ptr + i) value })
  beyond : ∀ as i value, slice.len ≤ i → ∃ panic,
    (s.after ports as).act ports (.write view i value) = (.error panic, s.after ports as)

/-- What a plugin is told and what it has left: memory has changed in the outputs only, what was
lent to be read is an input as the host stored it, a call on a port of the right kind answers
with that port and lends it, a slice has `frames` elements, and a call panics exactly when its
indices are wrong, with nothing done. -/
structure Safe (ports : Ports α) (m₀ : Memory α) (s : Session α) : Prop where
  frame : ∀ p, s.memory p ≠ m₀ p → p ∈ ports.outputs
  shared : ∀ view slice, s.views[view]? = some (.shared slice) →
    ∃ port, ports.HasKind port .audioInput ∧ ports.ptrs[port]? = some slice.ptr ∧
      ∀ i value, (s.act ports (.read view i)).1 = .ok (.data value) →
        i < ports.frames ∧ value = m₀ (slice.ptr + i)
  audioInput : ∀ port, ports.HasKind port .audioInput → ∃ ptr, ports.ptrs[port]? = some ptr ∧
    (s.act ports (.audioInput port)).1 = .ok (.slice ⟨ptr, ports.frames⟩) ∧
    Shows ports m₀ (s.act ports (.audioInput port)).2 s.views.length ⟨ptr, ports.frames⟩
  audioOutput : ∀ port, ports.HasKind port .audioOutput → ∃ ptr, ports.ptrs[port]? = some ptr ∧
    (s.act ports (.audioOutput port)).1 = .ok (.slice ⟨ptr, ports.frames⟩) ∧
    Takes ports (s.act ports (.audioOutput port)).2 s.views.length ⟨ptr, ports.frames⟩
  controlInput : ∀ port, ports.HasKind port .controlInput → ∃ ptr,
    ports.ptrs[port]? = some ptr ∧ s.act ports (.controlInput port) = (.ok (.data (m₀ ptr)), s)
  controlOutput : ∀ port, ports.HasKind port .controlOutput → ∃ ptr,
    ports.ptrs[port]? = some ptr ∧ (s.act ports (.controlOutput port)).1 = .ok (.cell ptr) ∧
    Takes ports (s.act ports (.controlOutput port)).2 s.views.length ⟨ptr, 1⟩
  audioInOut : ∀ inPort outPort, ports.HasKind inPort .audioInput →
    ports.HasKind outPort .audioOutput → ∃ inPtr outPtr,
      ports.ptrs[inPort]? = some inPtr ∧ ports.ptrs[outPort]? = some outPtr ∧
      (s.act ports (.audioInOut inPort outPort)).1 =
        .ok (.slices ⟨inPtr, ports.frames⟩ ⟨outPtr, ports.frames⟩) ∧
      Shows ports m₀ (s.act ports (.audioInOut inPort outPort)).2 s.views.length
        ⟨inPtr, ports.frames⟩ ∧
      Takes ports (s.act ports (.audioInOut inPort outPort)).2 (s.views.length + 1)
        ⟨outPtr, ports.frames⟩
  op : ∀ a o, a.op? = some o →
    (s.act ports a).1 = (ports.resolve o).map (fun e => (e.apply s.memory).1) ∧
      (s.act ports a).2.memory = s.memory
  length : ∀ a reply, (s.act ports a).1 = .ok reply → reply.OfLength ports.frames
  wrong : ∀ a, a.op?.isSome → ((∃ panic, s.act ports a = (.error panic, s)) ↔ ports.Wrong a)

/-- A slice of an input is outside the outputs. -/
theorem input_notMem (hapart : ports.Apart) {port i : ℕ} {slice : Slice} {p : Ptr}
    (h : ports.audioInput port = .ok slice) (hp : slice.element i = .ok p) :
    p ∉ ports.outputs := by
  obtain ⟨haccess, hlen⟩ := Ports.audioInput_eq_ok.mp h
  refine hapart.notMem_outputs (.inl rfl) haccess ?_
  have hmem := Slice.element_mem hp
  obtain ⟨ptr, len⟩ := slice
  subst hlen
  exact hmem

theorem Sound.frame (hs : Sound ports m₀ s) {p : Ptr} (hp : s.memory p ≠ m₀ p) :
    p ∈ ports.outputs := by
  by_contra h
  exact hp (hs.memory p h)

/-- A call lends something more, and takes nothing back. -/
theorem views_attempt {β : Type} {x : Except Panic β} {next : β → Reply α × Session α}
    (h : ∀ b, ∃ vs, (next b).2.views = s.views ++ vs) :
    ∃ vs, (s.attempt x next).2.views = s.views ++ vs := by
  cases x with
  | error panic => exact ⟨[], (List.append_nil _).symm⟩
  | ok b => exact h b

theorem views_act (ports : Ports α) (s : Session α) (a : Action α) :
    ∃ vs, (s.act ports a).2.views = s.views ++ vs := by
  cases a with
  | audioInput port => exact views_attempt fun input => ⟨_, rfl⟩
  | audioOutput port => exact views_attempt fun output => ⟨_, rfl⟩
  | controlInput port => exact views_attempt fun ptr => ⟨[], (List.append_nil _).symm⟩
  | controlOutput port => exact views_attempt fun ptr => ⟨_, rfl⟩
  | audioInOut inPort outPort => exact views_attempt fun slices => ⟨_, rfl⟩
  | read view i =>
    rw [act]
    split
    · exact views_attempt fun ptr => ⟨[], (List.append_nil _).symm⟩
    · exact ⟨[], (List.append_nil _).symm⟩
  | write view i value =>
    rw [act]
    split
    · exact views_attempt fun ptr => ⟨[], (List.append_nil _).symm⟩
    · exact ⟨[], (List.append_nil _).symm⟩

/-- **What is lent stays lent**, under the same number. -/
theorem getElem?_views_after {view : ℕ} {v : View} (h : s.views[view]? = some v)
    (as : List (Action α)) : (s.after ports as).views[view]? = some v := by
  induction as generalizing s with
  | nil => exact h
  | cons a as ih =>
    refine ih ?_
    obtain ⟨vs, hvs⟩ := views_act ports s a
    have hview : view < s.views.length := (List.getElem?_eq_some_iff.mp h).1
    rw [hvs, List.getElem?_append_left hview]
    exact h

/-- What a call lends comes behind what was lent before. -/
theorem getElem?_lend (s : Session α) (vs : List View) (k : ℕ) :
    (s.lend vs).views[s.views.length + k]? = vs[k]? := by
  rw [lend, List.getElem?_append_right (Nat.le_add_right _ _), Nat.add_sub_cancel_left]

/-- **An input that is lent** shows what the host stored. -/
theorem Sound.shows (hs : Sound ports m₀ s) (hapart : ports.Apart) {port view : ℕ}
    {slice : Slice} (h : ports.audioInput port = .ok slice)
    (hview : s.views[view]? = some (.shared slice)) : Shows ports m₀ s view slice := by
  intro as i
  rw [Session.act, getElem?_views_after hview as]
  simp only [View.slice]
  cases helement : slice.element i with
  | error panic => rfl
  | ok p =>
    have hp := (hs.after as).memory p (input_notMem hapart h helement)
    exact congrArg (fun value => Except.ok (Reply.data value)) hp

/-- **An output that is lent** can be read and written. -/
theorem takes {view : ℕ} {slice : Slice} (hview : s.views[view]? = some (.exclusive slice)) :
    Takes ports s view slice where
  read as i := by
    rw [act, getElem?_views_after hview as]
    simp only [View.slice]
    cases slice.element i <;> rfl
  write as i value hi := by
    rw [act, getElem?_views_after hview as]
    simp only [attempt, Slice.element_of_lt hi]
  beyond as i value hi := by
    rw [act, getElem?_views_after hview as]
    exact ⟨.indexOutOfBounds slice.len i, by
      simp only [attempt, Slice.element, if_neg (Nat.not_lt.mpr hi)]⟩

section Right

variable {port : ℕ} (hs : Sound ports m₀ s)
  (hlen : ports.ptrs.length = ports.descriptors.length)
include hlen

include hs in
/-- **Audio inputs**: the slice of the port, and a view of it. -/
theorem Sound.audioInput (hapart : ports.Apart) (hkind : ports.HasKind port .audioInput) :
    ∃ ptr, ports.ptrs[port]? = some ptr ∧
      (s.act ports (.audioInput port)).1 = .ok (.slice ⟨ptr, ports.frames⟩) ∧
      Shows ports m₀ (s.act ports (.audioInput port)).2 s.views.length ⟨ptr, ports.frames⟩ := by
  obtain ⟨ptr, hptr⟩ := hkind.access hlen
  have hslice : ports.audioInput port = .ok ⟨ptr, ports.frames⟩ :=
    Ports.audioInput_eq_ok.mpr ⟨hptr, rfl⟩
  refine ⟨ptr, (Ports.access_eq_ok.mp hptr).2, ?_⟩
  rw [Session.act, hslice]
  exact ⟨rfl, (hs.lend_shared hslice).shows hapart hslice (s.getElem?_lend _ 0)⟩

/-- **Audio outputs**: the slice of the port, and a view of it that can be written. -/
theorem act_audioOutput (hkind : ports.HasKind port .audioOutput) :
    ∃ ptr, ports.ptrs[port]? = some ptr ∧
      (s.act ports (.audioOutput port)).1 = .ok (.slice ⟨ptr, ports.frames⟩) ∧
      Takes ports (s.act ports (.audioOutput port)).2 s.views.length ⟨ptr, ports.frames⟩ := by
  obtain ⟨ptr, hptr⟩ := hkind.access hlen
  have hslice : ports.audioOutput port = .ok ⟨ptr, ports.frames⟩ :=
    Ports.audioOutput_eq_ok.mpr ⟨hptr, rfl⟩
  refine ⟨ptr, (Ports.access_eq_ok.mp hptr).2, ?_⟩
  rw [act, hslice]
  exact ⟨rfl, takes (s.getElem?_lend _ 0)⟩

include hs in
/-- **Control inputs** read as the host stored them. -/
theorem Sound.controlInput (hapart : ports.Apart) (hkind : ports.HasKind port .controlInput) :
    ∃ ptr, ports.ptrs[port]? = some ptr ∧
      s.act ports (.controlInput port) = (.ok (.data (m₀ ptr)), s) := by
  obtain ⟨ptr, hptr⟩ := hkind.access hlen
  have hcell : ports.controlInput port = .ok ptr := hptr
  have hmemory : s.memory ptr = m₀ ptr :=
    hs.memory ptr (hapart.notMem_outputs (.inr rfl) hptr ⟨le_rfl, Nat.lt_succ_self ptr⟩)
  refine ⟨ptr, (Ports.access_eq_ok.mp hptr).2, ?_⟩
  rw [Session.act, hcell, ← hmemory]
  rfl

/-- **Control outputs**: the cell of the port, lent to be written. -/
theorem act_controlOutput (hkind : ports.HasKind port .controlOutput) :
    ∃ ptr, ports.ptrs[port]? = some ptr ∧
      (s.act ports (.controlOutput port)).1 = .ok (.cell ptr) ∧
      Takes ports (s.act ports (.controlOutput port)).2 s.views.length ⟨ptr, 1⟩ := by
  obtain ⟨ptr, hptr⟩ := hkind.access hlen
  have hcell : ports.controlOutput port = .ok ptr := hptr
  refine ⟨ptr, (Ports.access_eq_ok.mp hptr).2, ?_⟩
  rw [act, hcell]
  exact ⟨rfl, takes (s.getElem?_lend _ 0)⟩

include hs in
/-- **Two slices at once**: the input to be read, the output to be written. -/
theorem Sound.audioInOut (hapart : ports.Apart) {inPort outPort : ℕ}
    (hin : ports.HasKind inPort .audioInput) (hout : ports.HasKind outPort .audioOutput) :
    ∃ inPtr outPtr, ports.ptrs[inPort]? = some inPtr ∧ ports.ptrs[outPort]? = some outPtr ∧
      (s.act ports (.audioInOut inPort outPort)).1 =
        .ok (.slices ⟨inPtr, ports.frames⟩ ⟨outPtr, ports.frames⟩) ∧
      Shows ports m₀ (s.act ports (.audioInOut inPort outPort)).2 s.views.length
        ⟨inPtr, ports.frames⟩ ∧
      Takes ports (s.act ports (.audioInOut inPort outPort)).2 (s.views.length + 1)
        ⟨outPtr, ports.frames⟩ := by
  obtain ⟨inPtr, hinPtr⟩ := hin.access hlen
  obtain ⟨outPtr, houtPtr⟩ := hout.access hlen
  have hinput : ports.audioInput inPort = .ok ⟨inPtr, ports.frames⟩ :=
    Ports.audioInput_eq_ok.mpr ⟨hinPtr, rfl⟩
  have houtput : ports.audioOutput outPort = .ok ⟨outPtr, ports.frames⟩ :=
    Ports.audioOutput_eq_ok.mpr ⟨houtPtr, rfl⟩
  have hsound := (hs.lend_shared hinput).lend_exclusive (output_region houtput)
  rw [lend_lend] at hsound
  refine ⟨inPtr, outPtr, (Ports.access_eq_ok.mp hinPtr).2, (Ports.access_eq_ok.mp houtPtr).2, ?_⟩
  rw [Session.act, Ports.audioInOut_eq_ok.mpr ⟨hinput, houtput⟩]
  exact ⟨rfl, hsound.shows hapart hinput (s.getElem?_lend _ 0), takes (s.getElem?_lend _ 1)⟩

end Right

/-- **Audio inputs** read as the host stored them. -/
theorem Sound.shared_read (hs : Sound ports m₀ s) (hapart : ports.Apart) {view : ℕ}
    {slice : Slice} (hview : s.views[view]? = some (.shared slice)) :
    ∃ port, ports.HasKind port .audioInput ∧ ports.ptrs[port]? = some slice.ptr ∧
      ∀ i value, (s.act ports (.read view i)).1 = .ok (.data value) →
        i < ports.frames ∧ value = m₀ (slice.ptr + i) := by
  obtain ⟨port, hport⟩ := hs.shared slice (List.mem_of_getElem? hview)
  obtain ⟨haccess, hlen⟩ := Ports.audioInput_eq_ok.mp hport
  refine ⟨port, Ports.hasKind_of_access haccess, (Ports.access_eq_ok.mp haccess).2, ?_⟩
  intro i value h
  rw [Session.act, hview] at h
  obtain ⟨p, hp, heq⟩ := attempt_eq_ok.mp h
  cases heq
  obtain ⟨hi, rfl⟩ := Slice.element_eq_ok.mp hp
  exact ⟨hlen ▸ hi, hs.memory _ (input_notMem hapart hport hp)⟩

/-- **Slices** have a length of `frames`. -/
theorem ofLength_of_act (h : (s.act ports a).1 = .ok reply) : reply.OfLength ports.frames := by
  cases a with
  | audioInput port =>
    obtain ⟨slice, hslice, rfl⟩ := attempt_eq_ok.mp h
    exact (Ports.audioInput_eq_ok.mp hslice).2
  | audioOutput port =>
    obtain ⟨slice, hslice, rfl⟩ := attempt_eq_ok.mp h
    exact (Ports.audioOutput_eq_ok.mp hslice).2
  | controlInput port =>
    obtain ⟨p, -, rfl⟩ := attempt_eq_ok.mp h
    trivial
  | controlOutput port =>
    obtain ⟨p, -, rfl⟩ := attempt_eq_ok.mp h
    trivial
  | audioInOut inPort outPort =>
    obtain ⟨⟨input, output⟩, hslices, rfl⟩ := attempt_eq_ok.mp h
    obtain ⟨hin, hout⟩ := Ports.audioInOut_eq_ok.mp hslices
    exact ⟨(Ports.audioInput_eq_ok.mp hin).2, (Ports.audioOutput_eq_ok.mp hout).2⟩
  | read view i =>
    rw [act] at h
    split at h
    · obtain ⟨p, -, rfl⟩ := attempt_eq_ok.mp h
      trivial
    · cases h
  | write view i value =>
    rw [act] at h
    split at h
    · obtain ⟨p, -, rfl⟩ := attempt_eq_ok.mp h
      trivial
    · cases h

/-- A call of an accessor panics, with nothing done, exactly when its check fails. -/
theorem attempt_panics {β : Type} {x : Except Panic β} {next : β → Reply α × Session α} :
    (∃ panic, s.attempt x next = (.error panic, s)) ↔ ¬ ∃ b, x = .ok b := by
  cases x with
  | error panic => exact iff_of_true ⟨panic, rfl⟩ nofun
  | ok b =>
    refine iff_of_false ?_ (not_not_intro ⟨b, rfl⟩)
    rintro ⟨panic, h⟩
    cases congrArg Prod.fst h

/-- **Panics** come from wrong indices and from nothing else. -/
theorem panics_iff_wrong (hlen : ports.ptrs.length = ports.descriptors.length)
    (ha : a.op?.isSome) : (∃ panic, s.act ports a = (.error panic, s)) ↔ ports.Wrong a := by
  cases a with
  | audioInput port =>
    rw [act, attempt_panics, Ports.Wrong, not_iff_not]
    constructor
    · rintro ⟨slice, h⟩
      exact Ports.hasKind_of_access (Ports.audioInput_eq_ok.mp h).1
    · intro h
      obtain ⟨ptr, hptr⟩ := h.access hlen
      exact ⟨⟨ptr, _⟩, Ports.audioInput_eq_ok.mpr ⟨hptr, rfl⟩⟩
  | audioOutput port =>
    rw [act, attempt_panics, Ports.Wrong, not_iff_not]
    constructor
    · rintro ⟨slice, h⟩
      exact Ports.hasKind_of_access (Ports.audioOutput_eq_ok.mp h).1
    · intro h
      obtain ⟨ptr, hptr⟩ := h.access hlen
      exact ⟨⟨ptr, _⟩, Ports.audioOutput_eq_ok.mpr ⟨hptr, rfl⟩⟩
  | controlInput port =>
    rw [act, attempt_panics, Ports.Wrong, not_iff_not]
    exact ⟨fun ⟨_, h⟩ => Ports.hasKind_of_access h, fun h => h.access hlen⟩
  | controlOutput port =>
    rw [act, attempt_panics, Ports.Wrong, not_iff_not]
    exact ⟨fun ⟨_, h⟩ => Ports.hasKind_of_access h, fun h => h.access hlen⟩
  | audioInOut inPort outPort =>
    rw [act, attempt_panics, Ports.Wrong, Ports.audioInOut_iff hlen, not_and_or]
    refine ⟨.inr, ?_⟩
    rintro (rfl | h)
    · rw [← not_and_or]
      rintro ⟨hin, hout⟩
      cases hin.unique hout
    · exact h
  | read view i => cases ha
  | write view i value => cases ha

end Session

/-- **Frame and kind safety.** Whatever a plugin calls and writes, memory changes only in the
output ports, each call answers with the port it names, inputs read as the host stored them,
slices have `frames` elements, and a call with wrong indices panics with nothing done. -/
theorem accessors_safe (ports : Ports α) (hlen : ports.ptrs.length = ports.descriptors.length)
    (hapart : ports.Apart) (m₀ : Memory α) (as : List (Action α)) :
    (Session.after ports ⟨m₀, []⟩ as).Safe ports m₀ := by
  have hs := (Session.sound_start ports m₀).after as
  exact {
    frame := fun _ hp => hs.frame hp
    shared := fun _ _ h => hs.shared_read hapart h
    audioInput := fun _ h => hs.audioInput hlen hapart h
    audioOutput := fun _ h => Session.act_audioOutput hlen h
    controlInput := fun _ h => hs.controlInput hlen hapart h
    controlOutput := fun _ h => Session.act_controlOutput hlen h
    audioInOut := fun _ _ hin hout => hs.audioInOut hlen hapart hin hout
    op := fun _ _ h => Session.act_op h
    length := fun _ _ h => Session.ofLength_of_act h
    wrong := fun _ ha => Session.panics_iff_wrong hlen ha }

/-- An audio input, an audio output and a control input, with cells of their own. -/
def wired : Ports ℤ where
  ptrs := [16, 32, 48]
  descriptors := [.audioInput "In", .audioOutput "Out", .controlInput "Gain"]
  frames := 4

theorem wired_apart : wired.Apart := by
  intro i j hij
  rw [Set.disjoint_left]
  rintro p ⟨d, ptr, hd, hptr, hp⟩ ⟨d', ptr', hd', hptr', hp'⟩
  have hshare := Slice.share_cell hp hp'
  match i, j with
  | 0, 0 | 1, 1 | 2, 2 => exact hij rfl
  | 0, 1 | 0, 2 | 1, 0 | 1, 2 | 2, 0 | 2, 1 =>
    cases hd
    cases hptr
    cases hd'
    cases hptr'
    exact absurd hshare (by decide)
  | _ + 3, _ => cases hd
  | _, _ + 3 => cases hd'

/-- A plugin that writes a gain into its output, and then reads its input. -/
theorem wired_safe : (Session.after wired ⟨fun p => p, []⟩
    [.audioInOut 0 1, .controlInput 2, .write 1 3 7, .read 0 3, .audioOutput 0]).Safe wired
      (fun p => p) :=
  accessors_safe wired rfl wired_apart (fun p => p)
    [.audioInOut 0 1, .controlInput 2, .write 1 3 7, .read 0 3, .audioOutput 0]

end Port
