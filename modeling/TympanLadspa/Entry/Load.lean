import TympanLadspa.Entry.Bundle

/-!
# The entry point of the shared object

`ladspa_descriptor`, as `plugin_entry!` makes it, called by any number of threads of a process
that goes on using its heap. The bundle is built under a `OnceLock`, block by block, by the first
thread that asks for the one plugin there is. A panic cannot leave an `extern "C"` function: it
ends the process.
-/

namespace Entry

open Port (PortDescriptor)
open Alloc (Heap Limited Owns Job Beside)
open Once (Phase Cell)

variable {α σ T : Type}

/-- The callbacks that the macro wires up. -/
inductive Shim
  | instantiate
  | connectPort
  | run
  | cleanup
  | activate
  | deactivate
deriving DecidableEq, Repr

def shims : Callbacks Shim where
  instantiate := .instantiate
  connectPort := .connectPort
  run := .run
  cleanup := .cleanup
  activate := some .activate
  deactivate := some .deactivate

/-- The address of the descriptor in the bundle, once there is one. -/
abbrev Place := {a : Addr // a ≠ Alloc.null}

/-- The `OnceLock` with the heap, what calls have returned so far, each with its index, and
whether the process has been aborted. -/
structure Process (α T : Type) where
  lock : Once.State T (Heap (Block α)) (Job (Block α) EmbeddedNul (Bundle Shim)) (Bundle Shim)
  results : List (BitVec 64 × Addr)
  aborted : Bool

/-- What happens next: a thread calls `ladspa_descriptor`, there is a move at the lock or beside
it, or a panic comes to the end of a call. -/
inductive Happening (T : Type)
  | call (t : T) (index : BitVec 64)
  | lock (m : Once.Move T Addr Beside)
  | abort (t : T)

namespace Process

/-- A process that has just mapped the shared object. -/
def start (heap : Heap (Block α)) : Process α T where
  lock := { store := heap, cell := .empty, phase := fun _ => .outside }
  results := []
  aborted := false

/-- The closure of `get_or_init`. -/
def initializer (P : Plugin α σ) :
    Initializer (Heap (Block α)) (Job (Block α) EmbeddedNul (Bundle Shim)) Addr (Bundle Shim)
      Beside :=
  Alloc.initializer (P.bundle shims)

variable [DecidableEq T]

/-- One happening. Only a call for index zero has to do with the lock. -/
def step (P : Plugin α σ) (place : Place) (s : Process α T) (a : Happening T) :
    Option (Process α T) :=
  if s.aborted then none
  else
    match a with
    | .call t index =>
      if index = 0#64 then
        (Once.step (initializer P) s.lock (.enter t)).map fun lock => { s with lock := lock }
      else if s.lock.phase t = .outside then
        some { s with results := s.results ++ [(index, Alloc.null)] }
      else none
    | .lock (.enter _) => none
    | .lock (.leave t) =>
      (Once.step (initializer P) s.lock (.leave t)).map fun lock =>
        { s with lock := lock, results := s.results ++ [(0#64, place.1)] }
    | .lock m => (Once.step (initializer P) s.lock m).map fun lock => { s with lock := lock }
    | .abort t => if s.lock.phase t = .unwinding then some { s with aborted := true } else none

/-- What a host finds at an address that `ladspa_descriptor` has returned. -/
def descriptorAt (place : Place) (s : Process α T) (ptr : Addr) : Option (RawDescriptor Shim) :=
  match s.lock.cell with
  | .filled bundle => if ptr = place.1 then some bundle.descriptor else none
  | _ => none

end Process

/-- The moves at the lock, and beside it. -/
def Happening.moves : Happening T → List (Once.Move T Addr Beside)
  | .call t index => if index = 0#64 then [.enter t] else []
  | .lock (.enter _) => []
  | .lock m => [m]
  | .abort _ => []

/-- A bundle has been built. -/
def Happening.isBuilt : Happening T → Bool
  | .lock (.finish _) => true
  | _ => false

/-- A thread asks for the plugin. -/
def Happening.isAsked : Happening T → Bool
  | .call _ index => index = 0#64
  | _ => false

/-- A thread that has asked for the plugin makes a move. -/
def Happening.isMove : Happening T → Bool
  | .lock m => m.isOwn
  | _ => false

namespace Process

variable [DecidableEq T] {P : Plugin α σ} {place : Place} {s s' : Process α T} {a : Happening T}
  {as : List (Happening T)} {heap : Heap (Block α)}

-- ════════════════════════════════════════════════════════════════════════
-- What can happen
-- ════════════════════════════════════════════════════════════════════════

/-- The happenings, one by one. -/
inductive Happens (P : Plugin α σ) (place : Place) (s : Process α T) :
    Happening T → Process α T → Prop
  | ask {t : T} {lock} (hlock : Once.Moves (initializer P) s.lock (.enter t) lock) :
    Happens P place s (.call t 0#64) { s with lock := lock }
  | null {t : T} {index : BitVec 64} (hindex : index ≠ 0#64) :
    Happens P place s (.call t index) { s with results := s.results ++ [(index, Alloc.null)] }
  | leave {t : T} {lock} (hlock : Once.Moves (initializer P) s.lock (.leave t) lock) :
    Happens P place s (.lock (.leave t))
      { s with lock := lock, results := s.results ++ [(0#64, place.1)] }
  | lock {m : Once.Move T Addr Beside} {lock} (henter : ∀ t, m ≠ .enter t)
    (hleave : ∀ t, m ≠ .leave t) (hlock : Once.Moves (initializer P) s.lock m lock) :
    Happens P place s (.lock m) { s with lock := lock }
  | abort {t : T} (hphase : s.lock.phase t = .unwinding) :
    Happens P place s (.abort t) { s with aborted := true }

theorem happens_of_step (h : step P place s a = some s') :
    s.aborted = false ∧ Happens P place s a s' := by
  unfold step at h
  split at h
  · cases h
  next hrunning =>
  refine ⟨Bool.eq_false_of_not_eq_true hrunning, ?_⟩
  cases a with
  | call t index =>
    by_cases hindex : index = 0#64
    · simp only [if_pos hindex, Option.map_eq_some_iff] at h
      obtain ⟨lock, hlock, rfl⟩ := h
      rw [hindex]
      exact .ask (Once.moves_of_step hlock)
    · simp only [if_neg hindex, Option.ite_none_right_eq_some, Option.some.injEq] at h
      obtain ⟨-, rfl⟩ := h
      exact .null hindex
  | lock m =>
    cases m with
    | enter t => cases h
    | leave t =>
      obtain ⟨lock, hlock, rfl⟩ := Option.map_eq_some_iff.mp h
      exact .leave (Once.moves_of_step hlock)
    | _ =>
      obtain ⟨lock, hlock, rfl⟩ := Option.map_eq_some_iff.mp h
      exact .lock (by simp) (by simp) (Once.moves_of_step hlock)
  | abort t =>
    simp only [Option.ite_none_right_eq_some, Option.some.injEq] at h
    obtain ⟨hphase, rfl⟩ := h
    exact .abort hphase

/-- A happening is no more than a move for the lock. -/
theorem Happens.lock_run (h : Happens P place s a s') :
    Transition.run (Once.step (initializer P)) s.lock a.moves = some s'.lock := by
  have hone : ∀ {m lock}, Once.Moves (initializer P) s.lock m lock →
      Transition.run (Once.step (initializer P)) s.lock [m] = some lock := by
    intro m lock hlock
    exact Transition.run_cons_eq_some.mpr ⟨lock, hlock.step_eq, rfl⟩
  cases h with
  | ask hlock => exact hone hlock
  | null hindex =>
    rw [Happening.moves, if_neg hindex]
    rfl
  | leave hlock => exact hone hlock
  | @lock m lock henter _ hlock =>
    cases m with
    | enter t => exact absurd rfl (henter t)
    | _ => exact hone hlock
  | abort => rfl

theorem lock_run (hrun : Transition.run (step P place) s as = some s') :
    Transition.run (Once.step (initializer P)) s.lock (as.flatMap Happening.moves) =
      some s'.lock := by
  induction as generalizing s with
  | nil =>
    cases hrun
    rfl
  | cons a as ih =>
    obtain ⟨u, hu, hrest⟩ := Transition.run_cons_eq_some.mp hrun
    rw [List.flatMap_cons]
    exact Transition.run_append_eq_some.mpr ⟨_, (happens_of_step hu).2.lock_run, ih hrest⟩

/-- What holds at the lock: `build` is on its way, or has come to a bundle. -/
abbrev relies (P : Plugin α σ) :
    Once.Rely (Heap (Block α)) (Job (Block α) EmbeddedNul (Bundle Shim)) (Bundle Shim) :=
  Alloc.rely (P.Bundles shims) (P.ports.length + 8)

theorem relies_keeps (P : Plugin α σ) : (relies P).Keeps (initializer P) :=
  Alloc.rely_keeps (P.bundle_yields shims) (P.bundle_takes shims)

omit [DecidableEq T] in
theorem start_holds (hlimited : Limited heap) (howns : Owns heap []) :
    (relies P).Holds (start heap : Process α T).lock where
  owner := by rintro t job ⟨⟩
  vacant := fun _ => ⟨hlimited, howns⟩
  job := by rintro t job ⟨⟩
  kept := by rintro value ⟨⟩

/-- Each result is the place of the descriptor, which is there, or NULL. -/
def Answers (place : Place) (s : Process α T) : Prop :=
  ∀ index ptr, (index, ptr) ∈ s.results →
    (index = 0#64 ∧ ptr = place.1 ∧ ∃ bundle, s.lock.cell = .filled bundle) ∨
      (index ≠ 0#64 ∧ ptr = Alloc.null)

theorem Answers.happens (hs : Answers place s) (h : Happens P place s a s') :
    Answers place s' := by
  have hlater : ∀ {m lock}, Once.Moves (initializer P) s.lock m lock →
      Answers place { s with lock := lock } := by
    intro m lock hlock index ptr hmem
    rcases hs index ptr hmem with ⟨hindex, hptr, bundle, hcell⟩ | hnull
    · exact .inl ⟨hindex, hptr, bundle, hlock.filled hcell⟩
    · exact .inr hnull
  cases h with
  | ask hlock => exact hlater hlock
  | null hindex =>
    intro index ptr hmem
    rcases List.mem_append.mp hmem with hmem | hmem
    · exact hs index ptr hmem
    · obtain ⟨rfl, rfl⟩ := Prod.mk.inj (List.mem_singleton.mp hmem)
      exact .inr ⟨hindex, rfl⟩
  | leave hlock =>
    intro index ptr hmem
    rcases List.mem_append.mp hmem with hmem | hmem
    · exact hlater hlock index ptr hmem
    · obtain ⟨rfl, rfl⟩ := Prod.mk.inj (List.mem_singleton.mp hmem)
      cases hlock with
      | leave hcell _ => exact .inl ⟨rfl, rfl, _, hcell⟩
  | lock _ _ hlock => exact hlater hlock
  | abort => exact hs

omit [DecidableEq T] in
/-- Each bundle that is built is one initialiser that comes through. -/
theorem countP_isBuilt (as : List (Happening T)) :
    (as.flatMap Happening.moves).countP Once.Move.isFinish = as.countP Happening.isBuilt := by
  induction as with
  | nil => rfl
  | cons a as ih =>
    have hmoves : a.moves.countP Once.Move.isFinish = if a.isBuilt then 1 else 0 := by
      cases a with
      | call t index =>
        rw [Happening.moves]
        split <;> rfl
      | lock m => cases m <;> rfl
      | abort t => rfl
    rw [List.flatMap_cons, List.countP_append, ih, hmoves, List.countP_cons, Nat.add_comm]

/-- **One descriptor, for good.** Whatever the threads of a process do, the bundle is built at
most once. Each call for index zero that has returned has the one address, and whenever a host
follows the pointers from there it finds the shims and what the plugin declares; each other call
has NULL. The process has no blocks of `build` but those of the bundle, and none while there is
neither a bundle nor one being built. -/
theorem loaded_once (hlimited : Limited heap) (howns : Owns heap [])
    (hrun : Transition.run (step P place) (start heap) as = some s) :
    as.countP Happening.isBuilt ≤ 1 ∧
      (∀ index ptr, (index, ptr) ∈ s.results →
        (index ≠ 0#64 → ptr = Alloc.null) ∧
        (index = 0#64 → ptr = place.1 ∧ (∃ d, P.build = .ok d) ∧
          ∃ d, s.descriptorAt place ptr = some d ∧ d.CallsBack shims ∧
            d.read s.lock.store = some P.reading)) ∧
      (∀ bundle, s.lock.cell = .filled bundle → bundle.freed.Nodup ∧
        ∀ a, (∃ b, s.lock.store a = some (.block b)) ↔ a ∈ bundle.freed) ∧
      (s.lock.cell = .empty → ∀ a b, s.lock.store a ≠ some (.block b)) := by
  have hholds : (relies P).Holds s.lock :=
    (relies_keeps P).run (start_holds hlimited howns) (lock_run hrun)
  have hkept : ∀ bundle, s.lock.cell = .filled bundle →
      ∃ owned, Owns s.lock.store owned ∧ P.Bundles shims owned (.ok bundle) :=
    fun bundle hcell => (hholds.kept bundle hcell).2
  refine ⟨?once, ?answers, ?blocks, ?none⟩
  case once =>
    rw [← countP_isBuilt]
    exact Once.finish_le_one (lock_run hrun)
  case answers =>
    have hanswers : Answers place s := by
      refine Transition.run_invariant (I := Answers place)
        (fun s a s' _ hs hstep => hs.happens (happens_of_step hstep).2) hrun ?_
      intro index ptr hmem
      cases hmem
    intro index ptr hmem
    rcases hanswers index ptr hmem with ⟨rfl, rfl, bundle, hcell⟩ | ⟨hindex, rfl⟩
    · obtain ⟨owned, howns, hbuild, hcalls, -, hread⟩ := hkept bundle hcell
      refine ⟨fun h => absurd rfl h, fun _ => ⟨rfl, hbuild, bundle.descriptor, ?_, hcalls, ?_⟩⟩
      · rw [descriptorAt, hcell]
        exact if_pos rfl
      · exact hread _ howns
    · exact ⟨fun _ => rfl, fun h => absurd h hindex⟩
  case blocks =>
    intro bundle hcell
    obtain ⟨owned, howns, -, -, hperm, -⟩ := hkept bundle hcell
    refine ⟨hperm.nodup_iff.mpr howns.nodup, fun a => ?_⟩
    rw [hperm.mem_iff, List.mem_map]
    constructor
    · rintro ⟨b, hb⟩
      exact ⟨(a, b), (howns.block_iff a b).mp hb, rfl⟩
    · rintro ⟨⟨a, b⟩, hmem, rfl⟩
      exact ⟨b, (howns.block_iff a b).mpr hmem⟩
  case none =>
    intro hcell
    exact Alloc.owns_nil_iff.mp (hholds.vacant hcell).2

-- ════════════════════════════════════════════════════════════════════════
-- Every call comes back
-- ════════════════════════════════════════════════════════════════════════

/-- A failing initialiser is a failing `build`. -/
theorem failed_build {e : Heap (Block α)} {job : Job (Block α) EmbeddedNul (Bundle Shim)}
    (hjob : (relies P).job e job) (houtcome : (initializer P).outcome job = some none) :
    ∃ error, P.build = .error error := by
  rcases Alloc.outcome_eq_some houtcome with ⟨value, hvalue, -⟩ | ⟨-, error, hrest⟩
  · cases hvalue
  · have hyields := hjob.yields
    rw [hrest] at hyields
    exact ⟨error, hyields⟩

omit [DecidableEq T] in
theorem countP_moves (as : List (Happening T)) :
    (as.flatMap Happening.moves).countP Once.Move.isOwn = as.countP Happening.isMove ∧
      (as.flatMap Happening.moves).countP Once.Move.isEnter = as.countP Happening.isAsked := by
  induction as with
  | nil => exact ⟨rfl, rfl⟩
  | cons a as ih =>
    obtain ⟨hown, henter⟩ := ih
    rw [List.flatMap_cons, List.countP_append, List.countP_append, hown, henter,
      List.countP_cons, List.countP_cons, Nat.add_comm, Nat.add_comm (List.countP _ a.moves)]
    cases a with
    | call t index =>
      by_cases hindex : index = 0#64
      · simp [Happening.moves, Happening.isMove, Happening.isAsked, Once.Move.isOwn,
          Once.Move.isEnter, hindex]
      · simp [Happening.moves, Happening.isMove, Happening.isAsked, hindex]
    | lock m =>
      cases m <;>
        simp [Happening.moves, Happening.isMove, Happening.isAsked, Once.Move.isOwn,
          Once.Move.isEnter]
    | abort t => simp [Happening.moves, Happening.isMove, Happening.isAsked]

/-- The threads that have asked for the plugin and not been answered. -/
def asking [Fintype T] (lock : Once.State T (Heap (Block α))
    (Job (Block α) EmbeddedNul (Bundle Shim)) (Bundle Shim)) : Finset T :=
  Finset.univ.filter fun t => lock.phase t = .inside

/-- A move of a thread that has asked is one of the process. -/
theorem exists_step {m : Once.Move T Addr Beside} {lock} (hrunning : s.aborted = false)
    (hown : m.isOwn = true) (h : Once.step (initializer P) s.lock m = some lock) :
    ∃ s', step P place s (.lock m) = some s' := by
  cases m with
  | enter t => cases hown
  | beside what => cases hown
  | leave t =>
    refine ⟨{ s with lock := lock, results := s.results ++ [(0#64, place.1)] }, ?_⟩
    simp only [step, hrunning, Bool.false_eq_true, if_false, h, Option.map_some]
  | _ =>
    refine ⟨{ s with lock := lock }, ?_⟩
    simp only [step, hrunning, Bool.false_eq_true, if_false, h, Option.map_some]

/-- Moves of threads that have asked, when no build fails: each that leaves has its answer. -/
theorem run_lock [Fintype T] (place : Place) {d : Descriptor α} (hbuild : P.build = .ok d)
    {ms : List (Once.Move T Addr Beside)} {lock}
    (hholds : (relies P).Holds s.lock) (hrunning : s.aborted = false)
    (hown : ∀ m ∈ ms, m.isOwn = true)
    (hrun : Transition.run (Once.step (initializer P)) s.lock ms = some lock) :
    ∃ n s', Transition.run (step P place) s (ms.map .lock) = some s' ∧ s'.lock = lock ∧
      s'.aborted = false ∧ s'.results = s.results ++ List.replicate n (0#64, place.1) ∧
      (asking s.lock).card = (asking lock).card + n := by
  induction ms generalizing s with
  | nil =>
    cases hrun
    exact ⟨0, s, rfl, rfl, hrunning, (List.append_nil _).symm, rfl⟩
  | cons m ms ih =>
    obtain ⟨u, hu, hrest⟩ := Transition.run_cons_eq_some.mp hrun
    have hmoves := Once.moves_of_step hu
    have hnext := (relies_keeps P).moves hholds hmoves
    have hown' : ∀ m ∈ ms, m.isOwn = true := fun m hm => hown m (List.mem_cons_of_mem _ hm)
    by_cases hleave : ∃ t, m = .leave t
    · obtain ⟨t, rfl⟩ := hleave
      have hstep : step P place s (.lock (.leave t)) =
          some { s with lock := u, results := s.results ++ [(0#64, place.1)] } := by
        simp only [step, hrunning, Bool.false_eq_true, if_false, hu, Option.map_some]
      obtain ⟨n, s', hs', hlock, haborted, hresults, hcard⟩ :=
        ih (s := { s with lock := u, results := s.results ++ [(0#64, place.1)] }) hnext hrunning
          hown' hrest
      refine ⟨n + 1, s', Transition.run_cons_eq_some.mpr ⟨_, hstep, hs'⟩, hlock, haborted, ?_, ?_⟩
      · rw [hresults, List.append_assoc, List.singleton_append, List.replicate_succ]
      · cases hmoves with
        | leave _ hphase =>
          have herase : asking (s.lock.put t .outside) = (asking s.lock).erase t := by
            ext v
            simp only [asking, Finset.mem_filter, Finset.mem_univ, true_and, Finset.mem_erase]
            by_cases hv : v = t
            · simp [hv, Once.State.put]
            · simp [hv, Once.State.put, Function.update_of_ne]
          have hmem : t ∈ asking s.lock :=
            Finset.mem_filter.mpr ⟨Finset.mem_univ t, hphase⟩
          have hpos := Finset.card_pos.mpr ⟨t, hmem⟩
          change (asking (s.lock.put t .outside)).card = _ at hcard
          rw [herase, Finset.card_erase_of_mem hmem] at hcard
          omega
    · have hstep : step P place s (.lock m) = some { s with lock := u } := by
        cases m with
        | enter t => cases hown _ List.mem_cons_self
        | leave t => exact absurd ⟨t, rfl⟩ hleave
        | _ => simp only [step, hrunning, Bool.false_eq_true, if_false, hu, Option.map_some]
      obtain ⟨n, s', hs', hlock, haborted, hresults, hcard⟩ :=
        ih (s := { s with lock := u }) hnext hrunning hown' hrest
      refine ⟨n, s', Transition.run_cons_eq_some.mpr ⟨_, hstep, hs'⟩, hlock, haborted, hresults,
        Eq.trans ?_ hcard⟩
      have hphase : u.phase = s.lock.phase := by
        cases hmoves with
        | enter => cases hown _ List.mem_cons_self
        | leave => exact absurd ⟨_, rfl⟩ hleave
        | fail hcell houtcome =>
          obtain ⟨error, herror⟩ := failed_build (hholds.job _ _ hcell) houtcome
          rw [hbuild] at herror
          cases herror
        | _ => rfl
      show (asking s.lock).card = (asking u).card
      unfold asking
      rw [hphase]

/-- A panic on its way, or one that has ended the process, is one of `build`. -/
structure Sound (P : Plugin α σ) (s : Process α T) : Prop where
  holds : (relies P).Holds s.lock
  unwinding : ∀ t, s.lock.phase t = .unwinding → ∃ error, P.build = .error error
  aborted : s.aborted = true → ∃ error, P.build = .error error

theorem Sound.happens (hs : Sound P s) (h : Happens P place s a s') : Sound P s' where
  holds := (relies_keeps P).run hs.holds h.lock_run
  unwinding := (relies_keeps P).unwinding (fun _ _ => failed_build) hs.holds hs.unwinding h.lock_run
  aborted := by
    cases h with
    | abort hphase => exact fun _ => hs.unwinding _ hphase
    | _ => exact hs.aborted

/-- **Every call comes back.** However calls and the rest of the process interleave, the threads
that ask for the plugin make no more moves than so many for each call, and while one of them is in
a call, one has a move. When the texts of the plugin can be C strings the process is never
aborted, and from wherever it is all the calls under way can return, each with the descriptor. -/
theorem calls_return [Fintype T] (hlimited : Limited heap) (howns : Owns heap [])
    (hrun : Transition.run (step P place) (start heap) as = some s) :
    as.countP Happening.isMove ≤ (P.ports.length + 11) * as.countP Happening.isAsked ∧
      (s.aborted = false → (∃ t, s.lock.phase t = .inside) →
        ∃ m s', m.isOwn = true ∧ step P place s (.lock m) = some s') ∧
      ((∃ d, P.build = .ok d) → s.aborted = false ∧
        ∃ bs s', Transition.run (step P place) s bs = some s' ∧
          (∀ b ∈ bs, b.isMove = true) ∧ (∀ t, s'.lock.phase t = .outside) ∧
          s'.results = s.results ++ List.replicate (asking s.lock).card (0#64, place.1)) := by
  have hstart := start_holds (P := P) (T := T) hlimited howns
  have hsound : Sound P s := by
    refine Transition.run_invariant (I := Sound P)
      (fun s a s' _ hs hstep => hs.happens (happens_of_step hstep).2) hrun ⟨hstart, ?_, ?_⟩
    · rintro t ⟨⟩
    · rintro ⟨⟩
  have hgoes : ∀ e i, (relies P).job e i → (initializer P).outcome i = none →
      ∃ answer, ((initializer P).work e i answer).isSome :=
    fun e i hjob houtcome => Alloc.exists_work hjob.limited houtcome
  refine ⟨?bound, ?progress, ?returns⟩
  case bound =>
    have hcost := Once.run_cost (relies_keeps P) (Alloc.rely_falls _) hstart (lock_run hrun)
    obtain ⟨hown, henter⟩ := countP_moves as
    have hzero : (start heap : Process α T).lock.cost (initializer P)
        (Alloc.left (P.ports.length + 8)) = 0 := Finset.sum_const_zero
    have hfirst : Alloc.left (P.ports.length + 8) (initializer P).start = P.ports.length + 8 := rfl
    rw [hzero, hfirst, Nat.zero_add, hown, henter] at hcost
    exact (Nat.le_add_right _ _).trans hcost
  case progress =>
    rintro hrunning ⟨t, ht⟩
    obtain ⟨m, lock, hmoves, henter, hbeside⟩ := Once.exists_moves hsound.holds ht hgoes
    have hown : m.isOwn = true := by
      cases m with
      | enter u => exact absurd rfl (henter u)
      | beside what => exact absurd rfl (hbeside what)
      | _ => rfl
    obtain ⟨s', hs'⟩ := exists_step (P := P) hrunning hown hmoves.step_eq
    exact ⟨m, s', hown, hs'⟩
  case returns =>
    rintro ⟨d, hbuild⟩
    have hnone : ¬ ∃ error, P.build = .error error := by
      rintro ⟨error, herror⟩
      rw [hbuild] at herror
      cases herror
    have hrunning : s.aborted = false :=
      Bool.eq_false_of_not_eq_true fun h => hnone (hsound.aborted h)
    obtain ⟨ms, lock, hms, hown, hinside, -⟩ :=
      Once.exists_settled (relies_keeps P) (Alloc.rely_falls _) hgoes hsound.holds
    obtain ⟨n, s', hs', rfl, haborted, hresults, hcard⟩ :=
      run_lock place hbuild hsound.holds hrunning hown hms
    have hnobody : asking s'.lock = ∅ :=
      Finset.filter_eq_empty_iff.mpr fun t _ => hinside t
    refine ⟨hrunning, ms.map .lock, s', hs', List.forall_mem_map.mpr hown, fun t => ?_, ?_⟩
    · cases hphase : s'.lock.phase t with
      | outside => rfl
      | inside => exact absurd hphase (hinside t)
      | unwinding =>
        have hsound' : Sound P s' := Transition.run_invariant (I := Sound P)
          (fun s a s' _ hs hstep => hs.happens (happens_of_step hstep).2) hs' hsound
        exact absurd (hsound'.unwinding t hphase) hnone
    · rw [hresults, hcard, hnobody, Finset.card_empty, Nat.zero_add]

end Process

-- ════════════════════════════════════════════════════════════════════════
-- Two threads
-- ════════════════════════════════════════════════════════════════════════

theorem limited_empty {β : Type} : Limited (fun _ => none : Heap β) := by
  simp [Limited]

theorem owns_empty {β : Type} : Owns (fun _ => none : Heap β) [] :=
  Alloc.owns_nil_iff.mpr fun _ _ => by simp

/-- Two threads that ask for the gain plugin at once, with the host at its heap in between; one of
them asks for a second plugin then. -/
def twoThreads : List (Happening Bool) :=
  [.call true 0#64, .call false 0#64, .lock (.claim false), .lock (.beside (.take 3))] ++
    (List.range 11).map (fun i => .lock (.work false (2 * i + 2))) ++
    [.lock (.beside (.free 3)), .lock (.finish false), .lock (.leave true), .lock (.leave false),
      .call true 1#64]

theorem twoThreads_run :
    ∃ s, Transition.run (Process.step (Gain.plugin : Plugin ℕ Unit) ⟨1, by decide⟩)
      (Process.start fun _ => none) twoThreads = some s ∧
        s.results = [(0#64, 1), (0#64, 1), (1#64, 0)] := by
  have hresults : (Transition.run (Process.step (Gain.plugin : Plugin ℕ Unit) ⟨1, by decide⟩)
      (Process.start fun _ => none) twoThreads).map Process.results =
        some [(0#64, 1), (0#64, 1), (1#64, 0)] := by
    decide +kernel
  exact Option.map_eq_some_iff.mp hresults

/-- Both find the one descriptor. -/
theorem gain_loaded_once :
    ∃ s, Transition.run (Process.step (Gain.plugin : Plugin ℕ Unit) ⟨1, by decide⟩)
        (Process.start fun _ => none) twoThreads = some s ∧
      ∃ d, s.descriptorAt ⟨1, by decide⟩ 1 = some d ∧ d.CallsBack shims ∧
        d.read s.lock.store = some (Gain.plugin : Plugin ℕ Unit).reading := by
  obtain ⟨s, hrun, hresults⟩ := twoThreads_run
  have hmem : (0#64, 1) ∈ s.results := by
    rw [hresults]
    exact List.mem_cons_self
  obtain ⟨-, -, hread⟩ :=
    (Process.loaded_once limited_empty owns_empty hrun).2.1 0#64 1 hmem |>.2 rfl
  exact ⟨s, hrun, hread⟩

/-- Neither has made more moves than there can be. -/
theorem gain_calls_return :
    ∃ s, Transition.run (Process.step (Gain.plugin : Plugin ℕ Unit) ⟨1, by decide⟩)
        (Process.start fun _ => none) twoThreads = some s ∧
      twoThreads.countP Happening.isMove ≤ (3 + 11) * 2 ∧ s.aborted = false := by
  obtain ⟨s, hrun, -⟩ := twoThreads_run
  obtain ⟨hbound, -, hreturn⟩ := Process.calls_return limited_empty owns_empty hrun
  have htexts : ∀ t ∈ (Gain.plugin : Plugin ℕ Unit).texts, ¬ HasNul t := by decide
  exact ⟨s, hrun, hbound, (hreturn (build_of_texts htexts)).1⟩

end Entry
