import TympanLadspa.Entry.Session
import TympanLadspa.Examples.GateHistory
import TympanLadspa.Port.Frames

/-!
# Two gates in a row

A second gate on what a first one lets through, in the same buffer or in others. Silence sets no
latch that the muted samples would not have set, so that of two gates only the one with the
higher thresholds is heard.
-/

namespace NoiseGate

open Port (AbsSample OrderedSample Sample Memory Ports Prog Ptr Slice Panic)
open Entry (Cycle)

variable {α : Type} [OrderedSample α]

/-- Silence is no louder than the sample; not so for NaN. -/
def AboveSilence (x : α) : Prop := OrderedSample.le (AbsSample.abs 0) (AbsSample.abs x) = true

theorem aboveSilence (x : ℚ) : AboveSilence x := by
  refine decide_eq_true (show |(0 : ℚ)| ≤ |x| from ?_)
  rw [abs_zero]
  exact abs_nonneg x

section Latches

variable {open₁ close₁ open₂ close₂ : α} {state state' : Bool}

/-- A muted sample leaves a gate shut, and so does the silence in its place. -/
theorem next_silence {x : α} (hx : AboveSilence x)
    (hshut : (hysteresis open₁ close₁).next state x = false) :
    (hysteresis open₁ close₁).next state 0 = false := by
  have hsets : (hysteresis open₁ close₁).sets 0 = true → (hysteresis open₁ close₁).sets x = true :=
    OrderedSample.gt_of_le_of_gt hx
  have hresets : (hysteresis open₁ close₁).resets x = true →
      (hysteresis open₁ close₁).resets 0 = true :=
    fun h => OrderedSample.gt_of_gt_of_le h hx
  have hquiet : (hysteresis open₁ close₁).sets x ≠ true := by
    intro hloud
    rw [Latch.next_of_sets hloud] at hshut
    cases hshut
  have hquiet₀ : (hysteresis open₁ close₁).sets 0 ≠ true := fun h => hquiet (hsets h)
  by_cases hreset : (hysteresis open₁ close₁).resets 0 = true
  · exact Latch.next_of_resets hquiet₀ hreset
  · have hidle : ¬ (hysteresis open₁ close₁).Decisive x :=
      not_or.mpr ⟨hquiet, fun h => hreset (hresets h)⟩
    rw [Latch.next_of_idle hidle] at hshut
    rw [Latch.next_of_idle (not_or.mpr ⟨hquiet₀, hreset⟩), hshut]

/-- **The higher thresholds behind**: the second gate alone is heard. -/
theorem gated_higher (habove : (hysteresis open₁ close₁).Above (hysteresis open₂ close₂))
    (hstate : state' = true → state = true) {xs : List α} (hxs : ∀ x ∈ xs, AboveSilence x) :
    gated open₂ close₂ state' (gated open₁ close₁ state xs) = gated open₂ close₂ state' xs ∧
      (hysteresis open₂ close₂).after state' (gated open₁ close₁ state xs) =
        (hysteresis open₂ close₂).after state' xs := by
  induction xs generalizing state state' with
  | nil => exact ⟨rfl, rfl⟩
  | cons x xs ih =>
    have hrest : ∀ y ∈ xs, AboveSilence y := fun y hy => hxs y (List.mem_cons_of_mem x hy)
    have hih := ih (habove.next (x := x) hstate) hrest
    rw [gated, gated, gated, Latch.after_cons, Latch.after_cons]
    by_cases hopen : (hysteresis open₁ close₁).next state x = true
    · simp only [hopen, if_true] at hih ⊢
      exact ⟨congrArg _ hih.1, hih.2⟩
    · have hshut : (hysteresis open₂ close₂).next state' x = false := by
        rw [← Bool.not_eq_true]
        exact fun h => hopen (habove.next hstate h)
      have hsilence := next_silence (hxs x List.mem_cons_self) hshut
      simp only [hopen, hshut, hsilence, Bool.false_eq_true, if_false] at hih ⊢
      exact ⟨congrArg _ hih.1, hih.2⟩

/-- **The lower thresholds behind**: the first gate alone is heard. -/
theorem gated_lower (habove : (hysteresis open₂ close₂).Above (hysteresis open₁ close₁))
    (hstate : state = true → state' = true) (xs : List α) :
    gated open₂ close₂ state' (gated open₁ close₁ state xs) = gated open₁ close₁ state xs ∧
      ((hysteresis open₁ close₁).after state xs = true →
        (hysteresis open₂ close₂).after state' (gated open₁ close₁ state xs) = true) := by
  induction xs generalizing state state' with
  | nil => exact ⟨rfl, hstate⟩
  | cons x xs ih =>
    rw [gated, gated, Latch.after_cons, Latch.after_cons]
    by_cases hopen : (hysteresis open₁ close₁).next state x = true
    · have hopen' := habove.next hstate hopen
      have hih := ih (fun _ : true = true => (rfl : true = true))
      simp only [hopen, hopen', if_true]
      exact ⟨congrArg _ hih.1, hih.2⟩
    · rw [Bool.not_eq_true] at hopen
      have hnever : false = true → (hysteresis open₂ close₂).next state' 0 = true := by simp
      have hih := ih hnever
      simp only [hopen, Bool.false_eq_true, if_false, ite_self]
      exact ⟨congrArg _ hih.1, hih.2⟩

end Latches

-- ════════════════════════════════════════════════════════════════════════
-- Runs
-- ════════════════════════════════════════════════════════════════════════

/-- The ports of a run of a gate: two slices that are one or apart, and what its thresholds are. -/
structure Gates (ports : Ports α) (m : Memory α) (input output : Ptr) (n : ℕ) (opens closes : α) :
    Prop where
  reads : ports.audioInput 0 = .ok ⟨input, n⟩
  writes : ports.audioOutput 1 = .ok ⟨output, n⟩
  apart : input = output ∨ Disjoint (Slice.mk input n).region (Slice.mk output n).region
  opens : ports.controlValue m 2 = .ok opens
  closes : ports.controlValue m 3 = .ok closes

theorem zipSamples_of_length {opens closes : α} {input output : List α} {state : Bool}
    (h : input.length = output.length) :
    zipSamples opens closes input output state =
      (gated opens closes state input, (hysteresis opens closes).after state input) := by
  rw [zipSamples_eq, ← h, List.take_length, h, List.drop_length, List.append_nil]

namespace Gates

variable {ports : Ports α} {m m' : Memory α} {input output : Ptr} {n : ℕ} {opens closes : α}

/-- Such a run returns. -/
theorem cycle (h : Gates ports m input output n opens closes) (gate : NoiseGate) :
    (plugin α).cycle gate ⟨ports, m⟩ =
      .ok (⟨(hysteresis opens closes).after gate.isOpen (m.cells input n)⟩,
        m.overwrite output (gated opens closes gate.isOpen (m.cells input n))) := by
  obtain ⟨openCell, hopen, rfl⟩ := Entry.except_map_eq_ok h.opens
  obtain ⟨closeCell, hclose, rfl⟩ := Entry.except_map_eq_ok h.closes
  have hlength : (m.cells input n).length = (m.cells output n).length := by
    rw [Memory.cells_length, Memory.cells_length]
  change (run gate ports.frames).exec ports m = _
  rw [run_exec hopen hclose h.reads h.writes h.apart gate m, zipSamples_of_length hlength]

omit [OrderedSample α] in
/-- The thresholds stay when what is written is elsewhere. -/
theorem congr (h : Gates ports m input output n opens closes)
    (hm : ∀ port ptr, ports.controlInput port = .ok ptr → m' ptr = m ptr) :
    Gates ports m' input output n opens closes where
  reads := h.reads
  writes := h.writes
  apart := h.apart
  opens := (Ports.controlValue_congr rfl (hm 2)).trans h.opens
  closes := (Ports.controlValue_congr rfl (hm 3)).trans h.closes

end Gates

/-- A block for two gates, the second on what the first one leaves, and for one gate in their
place. The host has put something in memory before it. -/
structure Row (α : Type) where
  memory : Memory α
  frames : ℕ
  first : Ports α
  second : Ports α
  alone : Ports α
  input : Ptr
  mid : Ptr
  output : Ptr

namespace Row

/-- The buffers are bound, and no threshold of the second gate is where the first one writes. -/
structure Wired (row : Row α) (open₁ close₁ open₂ close₂ opens closes : α) : Prop where
  first : Gates row.first row.memory row.input row.mid row.frames open₁ close₁
  second : Gates row.second row.memory row.mid row.output row.frames open₂ close₂
  alone : Gates row.alone row.memory row.input row.output row.frames opens closes
  apart : ∀ port ptr, row.second.controlInput port = .ok ptr →
    ptr ∉ (Slice.mk row.mid row.frames).region

/-- Both runs; what the second one has put out. -/
def both (row : Row α) (gates : NoiseGate × NoiseGate) :
    Except Panic (List α × (NoiseGate × NoiseGate)) := do
  let r₁ ← (plugin α).cycle gates.1 ⟨row.first, row.memory⟩
  let r₂ ← (plugin α).cycle gates.2 ⟨row.second, r₁.2⟩
  return (r₂.2.cells row.output row.frames, (r₁.1, r₂.1))

/-- The one run; what it has put out. -/
def one (row : Row α) (gate : NoiseGate) : Except Panic (List α × NoiseGate) := do
  let r ← (plugin α).cycle gate ⟨row.alone, row.memory⟩
  return (r.2.cells row.output row.frames, r.1)

/-- Block after block: all that has been put out. -/
def session {σ : Type} (step : Row α → σ → Except Panic (List α × σ)) :
    List (Row α) → σ → Except Panic (List α × σ)
  | [], state => .ok ([], state)
  | row :: rows, state => do
    let r ← step row state
    let rest ← session step rows r.2
    return (r.1 ++ rest.1, rest.2)

variable {row : Row α} {open₁ close₁ open₂ close₂ opens closes : α}

theorem Wired.one (h : row.Wired open₁ close₁ open₂ close₂ opens closes) (gate : NoiseGate) :
    row.one gate = .ok (gated opens closes gate.isOpen (row.memory.cells row.input row.frames),
      ⟨(hysteresis opens closes).after gate.isOpen (row.memory.cells row.input row.frames)⟩) := by
  unfold Row.one
  rw [h.alone.cycle]
  change Except.ok (Memory.cells _ _ _, _) = _
  rw [Memory.cells_overwrite_of_length (by rw [gated_length, Memory.cells_length])]

theorem Wired.both (h : row.Wired open₁ close₁ open₂ close₂ opens closes)
    (gates : NoiseGate × NoiseGate) {xs ys : List α}
    (hxs : row.memory.cells row.input row.frames = xs)
    (hys : gated open₁ close₁ gates.1.isOpen xs = ys) :
    row.both gates = .ok (gated open₂ close₂ gates.2.isOpen ys,
      (⟨(hysteresis open₁ close₁).after gates.1.isOpen xs⟩,
        ⟨(hysteresis open₂ close₂).after gates.2.isOpen ys⟩)) := by
  have hlength : ys.length = row.frames := by
    rw [← hys, ← hxs, gated_length, Memory.cells_length]
  have hmid := Memory.cells_overwrite_of_length (m := row.memory) (p := row.mid) hlength
  have hsecond : Gates row.second (row.memory.overwrite row.mid ys) row.mid row.output row.frames
      open₂ close₂ := by
    refine h.second.congr fun port ptr hptr => Memory.overwrite_of_notMem ?_
    rw [hlength]
    exact h.apart port ptr hptr
  unfold Row.both
  rw [h.first.cycle, hxs, hys]
  change ((plugin α).cycle gates.2 ⟨row.second, _⟩).bind _ = _
  rw [hsecond.cycle, hmid]
  have hout : (gated open₂ close₂ gates.2.isOpen ys).length = row.frames := by
    rw [gated_length, hlength]
  exact congrArg (fun out => Except.ok (out, _)) (Memory.cells_overwrite_of_length hout)

/-- **Step, with the higher thresholds behind.** -/
theorem Wired.both_higher (h : row.Wired open₁ close₁ open₂ close₂ open₂ close₂)
    (hopen : OrderedSample.le open₁ open₂ = true) (hclose : OrderedSample.le close₁ close₂ = true)
    (hcells : ∀ x ∈ row.memory.cells row.input row.frames, AboveSilence x)
    {gates : NoiseGate × NoiseGate} (hgates : gates.2.isOpen = true → gates.1.isOpen = true) :
    ∃ out gates', row.both gates = .ok (out, gates') ∧ row.one gates.2 = .ok (out, gates'.2) ∧
      (gates'.2.isOpen = true → gates'.1.isOpen = true) := by
  have habove := hysteresis_above hopen hclose
  obtain ⟨hout, hafter⟩ := gated_higher habove hgates hcells
  refine ⟨_, _, h.both gates rfl rfl, ?_, ?_⟩
  · rw [h.one, hout, hafter]
  · change (hysteresis open₂ close₂).after _ _ = true → (hysteresis open₁ close₁).after _ _ = true
    rw [hafter]
    exact habove.after hgates

/-- **Step, with the lower thresholds behind.** -/
theorem Wired.both_lower (h : row.Wired open₁ close₁ open₂ close₂ open₁ close₁)
    (hopen : OrderedSample.le open₂ open₁ = true) (hclose : OrderedSample.le close₂ close₁ = true)
    {gates : NoiseGate × NoiseGate} (hgates : gates.1.isOpen = true → gates.2.isOpen = true) :
    ∃ out gates', row.both gates = .ok (out, gates') ∧ row.one gates.1 = .ok (out, gates'.1) ∧
      (gates'.1.isOpen = true → gates'.2.isOpen = true) := by
  have habove := hysteresis_above hopen hclose
  obtain ⟨hout, hafter⟩ := gated_lower habove hgates
    (row.memory.cells row.input row.frames)
  refine ⟨_, _, h.both gates rfl rfl, ?_, hafter⟩
  rw [h.one, hout]

omit [OrderedSample α] in
/-- **Run.** What every block does, a session does. -/
theorem session_alike {σ τ : Type} {step : Row α → σ → Except Panic (List α × σ)}
    {step' : Row α → τ → Except Panic (List α × τ)} (I : σ → Prop) (view : σ → τ)
    {rows : List (Row α)}
    (h : ∀ row ∈ rows, ∀ state, I state → ∃ out state', step row state = .ok (out, state') ∧
      step' row (view state) = .ok (out, view state') ∧ I state')
    {state : σ} (hstate : I state) :
    ∃ out state', session step rows state = .ok (out, state') ∧
      session step' rows (view state) = .ok (out, view state') := by
  induction rows generalizing state with
  | nil => exact ⟨[], state, rfl, rfl⟩
  | cons row rows ih =>
    obtain ⟨out, mid, hstep, hstep', hmid⟩ := h row List.mem_cons_self state hstate
    obtain ⟨outs, last, hrest, hrest'⟩ :=
      ih (fun row' hrow => h row' (List.mem_cons_of_mem row hrow)) hmid
    refine ⟨out ++ outs, last, ?_, ?_⟩
    · rw [session, hstep]
      change (session step rows mid).bind _ = _
      rw [hrest]
      rfl
    · rw [session, hstep']
      change (session step' rows (view mid)).bind _ = _
      rw [hrest']
      rfl

end Row

/-- **Two gates in a row**: in any number of runs, on buffers of their own or in place, with any
thresholds that change from run to run, the one with the higher thresholds alone is heard, and
does what it would do alone. -/
theorem stricter_gate_heard (rows : List (Row α)) (gates : NoiseGate × NoiseGate) :
    ((∀ row ∈ rows, ∃ open₁ close₁ open₂ close₂, row.Wired open₁ close₁ open₂ close₂ open₂ close₂ ∧
        OrderedSample.le open₁ open₂ = true ∧ OrderedSample.le close₁ close₂ = true ∧
        ∀ x ∈ row.memory.cells row.input row.frames, AboveSilence x) →
      (gates.2.isOpen = true → gates.1.isOpen = true) →
      ∃ out gates', Row.session Row.both rows gates = .ok (out, gates') ∧
        Row.session Row.one rows gates.2 = .ok (out, gates'.2)) ∧
    ((∀ row ∈ rows, ∃ open₁ close₁ open₂ close₂, row.Wired open₁ close₁ open₂ close₂ open₁ close₁ ∧
        OrderedSample.le open₂ open₁ = true ∧ OrderedSample.le close₂ close₁ = true) →
      (gates.1.isOpen = true → gates.2.isOpen = true) →
      ∃ out gates', Row.session Row.both rows gates = .ok (out, gates') ∧
        Row.session Row.one rows gates.1 = .ok (out, gates'.1)) := by
  constructor
  · intro hrows hgates
    refine Row.session_alike (fun g => g.2.isOpen = true → g.1.isOpen = true) Prod.snd
      (fun row hrow state hstate => ?_) hgates
    obtain ⟨_, _, _, _, hwired, hopen, hclose, hcells⟩ := hrows row hrow
    exact hwired.both_higher hopen hclose hcells hstate
  · intro hrows hgates
    refine Row.session_alike (fun g => g.1.isOpen = true → g.2.isOpen = true) Prod.fst
      (fun row hrow state hstate => ?_) hgates
    obtain ⟨_, _, _, _, hwired, hopen, hclose⟩ := hrows row hrow
    exact hwired.both_lower hopen hclose hstate

/-- Three frames of two gates, and of one gate in their place, in one buffer. -/
def rowInPlace (memory : Memory ℚ) : Row ℚ :=
  let ports : Ports ℚ := { ptrs := [16, 16, 64, 65], descriptors := ports, frames := 3 }
  { memory := memory, frames := 3, first := ports, second := ports, alone := ports
    input := 16, mid := 16, output := 16 }

/-- A gate that is open and one that is not, both on the same thresholds. -/
theorem two_gates_in_place (memory : Memory ℚ) :
    ∃ out gates', Row.session Row.both [rowInPlace memory] (⟨true⟩, ⟨false⟩) = .ok (out, gates') ∧
      Row.session Row.one [rowInPlace memory] ⟨false⟩ = .ok (out, gates'.2) := by
  refine (stricter_gate_heard [rowInPlace memory] (⟨true⟩, ⟨false⟩)).1 ?_ (by simp)
  intro row hrow
  obtain rfl := List.mem_singleton.mp hrow
  have hgates : Gates (rowInPlace memory).alone memory 16 16 3 (memory 64) (memory 65) :=
    ⟨rfl, rfl, .inl rfl, rfl, rfl⟩
  refine ⟨memory 64, memory 65, memory 64, memory 65, ⟨hgates, hgates, hgates, ?_⟩,
    decide_eq_true le_rfl, decide_eq_true le_rfl, fun x _ => aboveSilence x⟩
  intro port ptr hptr hmem
  obtain ⟨⟨d, hd, hkind⟩, hget⟩ := Ports.access_eq_ok.mp hptr
  have hbehind : 16 + 3 ≤ ptr := by
    match port with
    | 0 | 1 =>
      cases hd
      cases hkind
    | 2 | 3 =>
      cases hget
      decide
    | port + 4 => cases hd
  exact Nat.not_lt.mpr hbehind hmem.2

end NoiseGate
