import TympanLadspa.Entry.Session
import TympanLadspa.Entry.Threads
import TympanLadspa.Port.Frames

/-!
# The sizes of blocks

A plugin that reads its controls and then goes over its frames one by one does not see where one
run ends and the next begins, wherever its buffers are: a host may cut a block into runs of any
sizes, if it connects the audio ports further on for each.
-/

namespace Entry

open Port (Ptr Memory Ports Panic Prog Slice)

variable {α σ υ γ τ : Type} {P : Plugin α σ} {view : σ → υ}

/-- A plugin that goes over its frames one by one. `view` is the part of its state that matters;
`γ` is what the controls come to, and `τ` the state of the loop. -/
structure Framewise (P : Plugin α σ) (view : σ → υ) (γ τ : Type) where
  controls : Ports α → Memory α → Except Panic γ
  enter : σ → τ
  body : γ → σ → ℕ → τ → Prog α τ
  leave : γ → σ → τ → σ
  /-- A run is the controls, the two slices, and the loop. -/
  cycle_eq : ∀ (state : σ) (ports : Ports α) (m : Memory α), P.cycle state ⟨ports, m⟩ =
    (controls ports m).bind fun c => (ports.audioInOut 0 1).bind fun _ =>
      ((Prog.loop (body c state) ports.frames 0 (enter state)).exec ports m).map
        (Prod.map (leave c state) id)
  /-- The controls are read through the control inputs. -/
  controls_congr : ∀ {ports ports' : Ports α} {m m' : Memory α},
    (∀ port, ports'.controlInput port = ports.controlInput port) →
    (∀ port ptr, ports.controlInput port = .ok ptr → m' ptr = m ptr) →
    controls ports' m' = controls ports m
  before : ∀ c state i t, (body c state i t).Before (i + 1)
  shift : ∀ c state k i t, (body c state i t).shift k = body c state (i + k) t
  enter_leave : ∀ c state t, enter (leave c state t) = t
  body_leave : ∀ c state t, body c (leave c state t) = body c state
  view_leave : ∀ c state t t', view (leave c (leave c state t) t') = view (leave c state t')

/-- A run returns, to a state with this view and to this memory. -/
def Plugin.Ends (P : Plugin α σ) (view : σ → υ) (state : σ) (ports : Ports α) (m : Memory α)
    (v : υ) (m' : Memory α) : Prop :=
  ∃ state', P.cycle state ⟨ports, m⟩ = .ok (state', m') ∧ view state' = v

namespace Framewise

theorem cycle_iff (F : Framewise P view γ τ) {state state' : σ} {ports : Ports α}
    {m m' : Memory α} : P.cycle state ⟨ports, m⟩ = .ok (state', m') ↔
      ∃ c t, F.controls ports m = .ok c ∧ (∃ slices, ports.audioInOut 0 1 = .ok slices) ∧
        (Prog.loop (F.body c state) ports.frames 0 (F.enter state)).exec ports m = .ok (t, m') ∧
        F.leave c state t = state' := by
  rw [F.cycle_eq]
  refine Port.bind_eq_ok.trans ?_
  constructor
  · rintro ⟨c, hc, h⟩
    obtain ⟨slices, hslices, h⟩ := Port.bind_eq_ok.mp h
    obtain ⟨⟨t, m''⟩, hexec, heq⟩ := except_map_eq_ok h
    cases heq
    exact ⟨c, t, hc, ⟨slices, hslices⟩, hexec, rfl⟩
  · rintro ⟨c, t, hc, ⟨slices, hslices⟩, hexec, rfl⟩
    refine ⟨c, hc, Port.bind_eq_ok.mpr ⟨slices, hslices, ?_⟩⟩
    rw [hexec]
    rfl

/-- The loop of a run on ports that begin further on. -/
theorem loop_exec (F : Framewise P view γ τ) {ports ports' : Ports α} {k : ℕ}
    (h : ports.Sees k ports') (c : γ) (state : σ) (t : τ) (m : Memory α) :
    (Prog.loop (F.body c state) ports'.frames 0 t).exec ports' m =
      (Prog.loop (F.body c state) ports'.frames k t).exec ports m := by
  have hbefore := Prog.before_loop (F.before c state) ports'.frames 0 t
  rw [Nat.zero_add] at hbefore
  rw [h.exec hbefore, Prog.shift_loop (F.shift c state k), Nat.zero_add]

/-- **Two runs for one**: the first on the first frames, the second on the rest. -/
theorem ends_add (F : Framewise P view γ τ) {ports ports₁ ports₂ : Ports α}
    (hframes : ports.frames = ports₁.frames + ports₂.frames) (h₁ : ports.Sees 0 ports₁)
    (h₂ : ports.Sees ports₁.frames ports₂)
    (hcontrols : ∀ port ptr, ports.controlInput port = .ok ptr → ptr ∉ ports₁.outputs)
    {state : σ} {m m' : Memory α} {v : υ} :
    P.Ends view state ports m v m' ↔
      ∃ state₁ m₁, P.cycle state ⟨ports₁, m⟩ = .ok (state₁, m₁) ∧
        P.Ends view state₁ ports₂ m₁ v m' := by
  have hsame : F.controls ports₁ m = F.controls ports m :=
    F.controls_congr h₁.control fun _ _ _ => rfl
  -- the whole loop is the one loop and then the other
  have hloop : ∀ c, (Prog.loop (F.body c state) ports.frames 0 (F.enter state)).exec ports m =
      ((Prog.loop (F.body c state) ports₁.frames 0 (F.enter state)).exec ports₁ m).bind
        fun r => (Prog.loop (F.body c state) ports₂.frames 0 r.1).exec ports₂ r.2 := by
    intro c
    rw [hframes, Prog.loop_add, Prog.exec_bind, F.loop_exec h₁, Nat.zero_add]
    congr 1
    funext r
    rw [F.loop_exec h₂]
  constructor
  · rintro ⟨state', hcycle, hview⟩
    obtain ⟨c, t, hread, hslices, hexec, rfl⟩ := F.cycle_iff.mp hcycle
    rw [hloop] at hexec
    obtain ⟨⟨t₁, m₁⟩, hfirst, hsecond⟩ := Port.bind_eq_ok.mp hexec
    have hread₂ : F.controls ports₂ m₁ = .ok c := by
      rw [← hread]
      exact F.controls_congr h₂.control fun port ptr hptr =>
        Prog.exec_frame hfirst (hcontrols port ptr hptr)
    refine ⟨F.leave c state t₁, m₁, F.cycle_iff.mpr ⟨c, t₁, hsame.trans hread,
      (h₁.inOut 0 1).mpr hslices, hfirst, rfl⟩, F.leave c (F.leave c state t₁) t, ?_, ?_⟩
    · refine F.cycle_iff.mpr ⟨c, t, hread₂, (h₂.inOut 0 1).mpr hslices, ?_, rfl⟩
      rw [F.body_leave, F.enter_leave]
      exact hsecond
    · rw [F.view_leave, hview]
  · rintro ⟨state₁, m₁, hcycle₁, state₂, hcycle₂, hview⟩
    obtain ⟨c, t₁, hread₁, hslices, hfirst, rfl⟩ := F.cycle_iff.mp hcycle₁
    obtain ⟨c₂, t, hread₂, -, hsecond, rfl⟩ := F.cycle_iff.mp hcycle₂
    rw [hsame] at hread₁
    have hagain : F.controls ports₂ m₁ = F.controls ports m :=
      F.controls_congr h₂.control fun port ptr hptr =>
        Prog.exec_frame hfirst (hcontrols port ptr hptr)
    obtain rfl : c₂ = c := Except.ok.inj (hread₂.symm.trans (hagain.trans hread₁))
    rw [F.body_leave, F.enter_leave] at hsecond
    refine ⟨F.leave c₂ state t, F.cycle_iff.mpr ⟨c₂, t, hread₁, (h₁.inOut 0 1).mp hslices, ?_, rfl⟩,
      ?_⟩
    · rw [hloop, hfirst]
      exact hsecond
    · rw [← hview, F.view_leave]

end Framewise

-- ════════════════════════════════════════════════════════════════════════
-- Any number of runs
-- ════════════════════════════════════════════════════════════════════════

/-- Runs one after the other, each on the frames behind those of the one before; `ports k n` are
the ports of `n` frames from `k` on. -/
def Plugin.pieces (P : Plugin α σ) (ports : ℕ → ℕ → Ports α) :
    ℕ → List ℕ → σ → Memory α → Except Panic (σ × Memory α)
  | _, [], state, m => .ok (state, m)
  | k, n :: ns, state, m =>
    (P.cycle state ⟨ports k n, m⟩).bind fun r => P.pieces ports (k + n) ns r.1 r.2

/-- Ports that go over one buffer each, with control cells apart from the first `len` cells of
what is written. -/
structure Slides (ports : ℕ → ℕ → Ports α) (len : ℕ) : Prop where
  frames : ∀ k n, (ports k n).frames = n
  sees : ∀ k n j, (ports k (n + j)).Sees 0 (ports k n)
  sees_behind : ∀ k n j, (ports k (n + j)).Sees n (ports (k + n) j)
  apart : ∀ k n port ptr, k + n ≤ len → (ports k n).controlInput port = .ok ptr →
    ptr ∉ (ports k n).outputs
  control : ∀ k n j port, (ports k j).controlInput port = (ports k n).controlInput port

/-- **Any sizes**: runs one after the other come to what one run comes to. -/
theorem Framewise.pieces_iff (F : Framewise P view γ τ) {ports : ℕ → ℕ → Ports α} {len : ℕ}
    (hports : Slides ports len) {k n : ℕ} {ns : List ℕ} (hlen : k + (n + ns.sum) ≤ len)
    {state : σ} {m m' : Memory α} {v : υ} :
    (∃ state', P.pieces ports k (n :: ns) state m = .ok (state', m') ∧ view state' = v) ↔
      P.Ends view state (ports k (n + ns.sum)) m v m' := by
  induction ns generalizing k n state m with
  | nil =>
    have hone : P.pieces ports k [n] state m = P.cycle state ⟨ports k n, m⟩ := by
      rw [Plugin.pieces]
      cases P.cycle state ⟨ports k n, m⟩ <;> rfl
    rw [hone]
    rfl
  | cons n' ns ih =>
    rw [List.sum_cons] at hlen ⊢
    have hadd : P.Ends view state (ports k (n + (n' + ns.sum))) m v m' ↔
        ∃ state₁ m₁, P.cycle state ⟨ports k n, m⟩ = .ok (state₁, m₁) ∧
          P.Ends view state₁ (ports (k + n) (n' + ns.sum)) m₁ v m' := by
      refine F.ends_add ?_ (hports.sees k n _) ?_ fun port ptr hptr => ?_
      · simp only [hports.frames]
      · rw [hports.frames]
        exact hports.sees_behind k n _
      · exact hports.apart k n port ptr (by omega) (by rw [← hptr]; exact hports.control ..)
    rw [hadd]
    constructor
    · rintro ⟨state', hpieces, hview⟩
      obtain ⟨⟨state₁, m₁⟩, hcycle, hrest⟩ := Port.bind_eq_ok.mp hpieces
      exact ⟨state₁, m₁, hcycle, (ih (by omega)).mp ⟨state', hrest, hview⟩⟩
    · rintro ⟨state₁, m₁, hcycle, hends⟩
      obtain ⟨state', hrest, hview⟩ := (ih (by omega)).mpr hends
      exact ⟨state', Port.bind_eq_ok.mpr ⟨⟨state₁, m₁⟩, hcycle, hrest⟩, hview⟩

theorem Framewise.pieces_agree (F : Framewise P view γ τ) {ports : ℕ → ℕ → Ports α} {len : ℕ}
    (hports : Slides ports len) {k : ℕ} {ns ns' : List ℕ} (hns : ns ≠ []) (hns' : ns' ≠ [])
    (hsum : ns.sum = ns'.sum) (hlen : k + ns.sum ≤ len) (state : σ) (m : Memory α) :
    (P.pieces ports k ns state m).toOption.map (Prod.map view id) =
      (P.pieces ports k ns' state m).toOption.map (Prod.map view id) := by
  have hends : ∀ {ms : List ℕ}, ms ≠ [] → ms.sum = ns.sum → ∀ {m' : Memory α} {v : υ},
      (P.pieces ports k ms state m).toOption.map (Prod.map view id) = some (v, m') ↔
        P.Ends view state (ports k ns.sum) m v m' := by
    intro ms hms hsum m' v
    obtain ⟨n, ms, rfl⟩ := List.exists_cons_of_ne_nil hms
    rw [List.sum_cons] at hsum
    rw [← hsum, ← F.pieces_iff hports (hsum ▸ hlen)]
    cases P.pieces ports k (n :: ms) state m with
    | error panic => simp [Except.toOption]
    | ok r => simp [Except.toOption, Prod.ext_iff, and_comm]
  ext ⟨v, m'⟩
  rw [hends hns rfl, hends hns' hsum.symm]

-- ════════════════════════════════════════════════════════════════════════
-- The buffers of an instance
-- ════════════════════════════════════════════════════════════════════════

/-- One audio input, one audio output, and control inputs. -/
structure Plugin.InOut (P : Plugin α σ) : Prop where
  input : (P.ports[0]?).map (·.kind) = some .audioInput
  output : (P.ports[1]?).map (·.kind) = some .audioOutput
  control : ∀ port d, P.ports[port + 2]? = some d → d.kind = .controlInput

/-- The ports of a run of `n` frames from `k` on, of one buffer each. -/
def Instance.aim (inst : Instance P) (input output : Ptr) (k n : ℕ) : Ports α where
  ptrs := (inst.portPtrs.set 0 (input + k)).set 1 (output + k)
  descriptors := P.ports
  frames := n

/-- The kind of a port says where its pointer is. -/
theorem Instance.aim_access (hP : P.InOut) (inst : Instance P) (input output : Ptr) (k n : ℕ) :
    (inst.aim input output k n).access 0 .audioInput = .ok (input + k) ∧
      (inst.aim input output k n).access 1 .audioOutput = .ok (output + k) := by
  obtain ⟨d, hd, hin⟩ := Option.map_eq_some_iff.mp hP.input
  obtain ⟨e, he, hout⟩ := Option.map_eq_some_iff.mp hP.output
  have hlength : 1 < inst.portPtrs.length := by
    rw [inst.portPtrs_length]
    exact (List.getElem?_eq_some_iff.mp he).1
  constructor
  · refine Ports.access_eq_ok.mpr ⟨⟨d, hd, hin⟩, ?_⟩
    simp only [aim]
    rw [List.getElem?_set_ne (by omega), List.getElem?_set_self (by omega)]
  · refine Ports.access_eq_ok.mpr ⟨⟨e, he, hout⟩, ?_⟩
    simp only [aim]
    rw [List.getElem?_set_self (by rw [List.length_set]; exact hlength)]

/-- A port of another kind is refused, wherever the buffers are. -/
theorem Instance.aim_refuses (inst : Instance P) (input output : Ptr) (port : ℕ)
    (kind : Port.PortKind) (h : ∀ d, P.ports[port]? = some d → d.kind ≠ kind) :
    ∃ panic, ∀ k n, (inst.aim input output k n).access port kind = .error panic := by
  have hsame : ∀ k n, (inst.aim input output k n).assertKind port kind =
      (inst.aim input output 0 0).assertKind port kind := fun _ _ => rfl
  cases hkind : (inst.aim input output 0 0).assertKind port kind with
  | error panic =>
    refine ⟨panic, fun k n => ?_⟩
    rw [Ports.access, hsame, hkind]
    rfl
  | ok u =>
    obtain ⟨d, hd, heq⟩ := Ports.assertKind_eq_ok.mp hkind
    exact absurd heq (h d hd)

/-- The kinds of the ports, by their index. -/
theorem Plugin.InOut.kind (hP : P.InOut) {port : ℕ} {d : Port.PortDescriptor α}
    (hd : P.ports[port]? = some d) :
    port = 0 ∧ d.kind = .audioInput ∨ port = 1 ∧ d.kind = .audioOutput ∨
      2 ≤ port ∧ d.kind = .controlInput := by
  match port with
  | 0 =>
    have h := hP.input
    rw [hd] at h
    exact .inl ⟨rfl, Option.some.inj h⟩
  | 1 =>
    have h := hP.output
    rw [hd] at h
    exact .inr (.inl ⟨rfl, Option.some.inj h⟩)
  | port + 2 => exact .inr (.inr ⟨Nat.le_add_left _ _, hP.control port d hd⟩)

/-- The control inputs stay where they are. -/
theorem Instance.aim_control (hP : P.InOut) (inst : Instance P) (input output : Ptr) (port : ℕ) :
    ∃ r, (∀ k n, (inst.aim input output k n).controlInput port = r) ∧
      ∀ ptr, r = .ok ptr → 2 ≤ port ∧ inst.portPtrs[port]? = some ptr := by
  by_cases hport : 2 ≤ port
  · refine ⟨(inst.aim input output 0 0).controlInput port, fun k n => ?_, fun ptr hptr => ?_⟩
    · unfold Ports.controlInput Ports.access Ports.ptr
      simp only [aim, List.getElem?_set_ne (show (1 : ℕ) ≠ port by omega),
        List.getElem?_set_ne (show (0 : ℕ) ≠ port by omega), List.length_set]
      rfl
    · obtain ⟨-, hget⟩ := Ports.access_eq_ok.mp hptr
      simp only [aim, List.getElem?_set_ne (show (1 : ℕ) ≠ port by omega),
        List.getElem?_set_ne (show (0 : ℕ) ≠ port by omega)] at hget
      exact ⟨hport, hget⟩
  · obtain ⟨panic, hpanic⟩ := inst.aim_refuses input output port .controlInput fun d hd hkind => by
        rcases hP.kind hd with ⟨-, h⟩ | ⟨-, h⟩ | ⟨h, -⟩
        · rw [hkind] at h
          cases h
        · rw [hkind] at h
          cases h
        · exact hport h
    refine ⟨.error panic, hpanic, fun ptr hptr => ?_⟩
    cases hptr

/-- **Further on in the buffers**. -/
theorem Instance.aim_sees (hP : P.InOut) (inst : Instance P) (input output : Ptr) (k : ℕ)
    {n j len : ℕ} (hlen : n + j ≤ len) :
    (inst.aim input output k len).Sees j (inst.aim input output (k + j) n) where
  frames := hlen
  input := by
    intro port
    by_cases hport : port = 0
    · rw [hport, (inst.aim_access hP ..).1, (inst.aim_access hP ..).1]
      exact congrArg Except.ok (Nat.add_assoc input k j).symm
    · obtain ⟨panic, hpanic⟩ := inst.aim_refuses input output port .audioInput fun d hd hkind => by
          rcases hP.kind hd with ⟨h, -⟩ | ⟨-, h⟩ | ⟨-, h⟩
          · exact hport h
          · rw [hkind] at h
            cases h
          · rw [hkind] at h
            cases h
      rw [hpanic, hpanic]
      rfl
  output := by
    intro port
    by_cases hport : port = 1
    · rw [hport, (inst.aim_access hP ..).2, (inst.aim_access hP ..).2]
      exact congrArg Except.ok (Nat.add_assoc output k j).symm
    · obtain ⟨panic, hpanic⟩ := inst.aim_refuses input output port .audioOutput fun d hd hkind => by
          rcases hP.kind hd with ⟨-, h⟩ | ⟨h, -⟩ | ⟨-, h⟩
          · rw [hkind] at h
            cases h
          · exact hport h
          · rw [hkind] at h
            cases h
      rw [hpanic, hpanic]
      rfl
  control := by
    intro port
    obtain ⟨r, hr, -⟩ := inst.aim_control hP input output port
    rw [hr, hr]

/-- The ports of the runs on two buffers, when the control cells are not in what is written. -/
theorem Instance.slides_aim (hP : P.InOut) (inst : Instance P) (input output : Ptr) {len : ℕ}
    (hcontrols : ∀ port ptr, 2 ≤ port → inst.portPtrs[port]? = some ptr →
      ptr ∉ (Slice.mk output len).region) :
    Slides (inst.aim input output) len where
  frames _ _ := rfl
  sees k n j := by
    have h := inst.aim_sees hP input output k (show n + 0 ≤ n + j by omega)
    rwa [Nat.add_zero] at h
  sees_behind k n j := inst.aim_sees hP input output k (Nat.add_comm j n).le
  apart := by
    rintro k n port ptr hlen hptr ⟨q, hkind, d, p, hd, hp, hmem⟩
    obtain ⟨r, hr, hget⟩ := inst.aim_control hP input output port
    obtain ⟨hport, hptr⟩ := hget ptr ((hr k n).symm.trans hptr)
    refine hcontrols port ptr hport hptr ?_
    -- the one output is the second port
    have hdeclared : d.kind = .audioOutput ∨ d.kind = .controlOutput := by
      rcases hkind with ⟨e, he, hout⟩ | ⟨e, he, hout⟩
      · rw [hd] at he
        cases he
        exact .inl hout
      · rw [hd] at he
        cases he
        exact .inr hout
    rcases hP.kind hd with ⟨-, h⟩ | ⟨rfl, h⟩ | ⟨-, h⟩
    · rw [h] at hdeclared
      simp at hdeclared
    · obtain ⟨-, hget⟩ := Ports.access_eq_ok.mp (inst.aim_access hP input output k n).2
      cases hp.symm.trans hget
      rw [h] at hmem
      obtain ⟨hle, hlt⟩ := hmem
      have hend : output + k + n ≤ output + len := by
        rw [Nat.add_assoc]
        exact Nat.add_le_add_left hlen output
      exact ⟨(Nat.le_add_right _ _).trans hle, lt_of_lt_of_le hlt hend⟩
    · rw [h] at hdeclared
      simp at hdeclared
  control := by
    intro k n j port
    obtain ⟨r, hr, -⟩ := inst.aim_control hP input output port
    rw [hr, hr]

-- ════════════════════════════════════════════════════════════════════════
-- The calls of a host
-- ════════════════════════════════════════════════════════════════════════

/-- A host that runs an instance on two buffers block by block. -/
def blocks (handle : Handle) (input output : Ptr) : ℕ → List ℕ → List (Call α)
  | _, [] => []
  | k, n :: ns =>
    .connectPort handle 0 (input + k) :: .connectPort handle 1 (output + k) ::
      .run handle n :: blocks handle input output (k + n) ns

/-- Both connections, on a live instance. -/
theorem World.step_connect {w : World P} {handle : Handle} {inst : Instance P} {port : ℕ}
    (hlive : w.heap handle = some inst) (hport : port < P.ports.length) (data : Ptr) :
    ∃ inst', w.step (.connectPort handle port data) = some (w.put handle (some inst')) ∧
      inst'.plugin = inst.plugin ∧ inst'.portPtrs = inst.portPtrs.set port data := by
  have hlength : port < inst.portPtrs.length := inst.portPtrs_length ▸ hport
  have hconnect : ∃ inst', inst.connectPort port data = .ok inst' :=
    ⟨_, if_pos hlength⟩
  obtain ⟨inst', hinst'⟩ := hconnect
  obtain ⟨-, hplugin, hptrs⟩ := Instance.connectPort_eq_ok hinst'
  refine ⟨inst', ?_, hplugin, hptrs⟩
  simp only [step, connectPortShim, deref, hlive, bind, Except.bind, hinst']
  rfl

/-- **One block** is a run on the ports further on. -/
theorem World.run_block (hP : P.InOut) {w : World P} {handle : Handle} {inst : Instance P}
    (hlive : w.heap handle = some inst) (input output : Ptr) (k n : ℕ) (w' : World P) :
    Transition.run World.step w [.connectPort handle 0 (input + k),
        .connectPort handle 1 (output + k), .run handle n] = some w' ↔
      ∃ (inst' : Instance P) (memory : Memory α),
        P.cycle inst.plugin ⟨inst.aim input output k n, w.memory⟩ = .ok (inst'.plugin, memory) ∧
        inst'.portPtrs = (inst.portPtrs.set 0 (input + k)).set 1 (output + k) ∧
        w' = ⟨Function.update w.heap handle (some inst'), memory,
          w.log ++ [(handle, .run n (inst.aim input output k n))]⟩ := by
  obtain ⟨e, he, -⟩ := Option.map_eq_some_iff.mp hP.output
  have hports : 1 < P.ports.length := (List.getElem?_eq_some_iff.mp he).1
  obtain ⟨inst₁, hstep₁, hplugin₁, hptrs₁⟩ :=
    World.step_connect hlive (show 0 < P.ports.length by omega) (input + k)
  obtain ⟨inst₂, hstep₂, hplugin₂, hptrs₂⟩ :=
    World.step_connect ((World.put_heap ..).trans (if_pos rfl)) hports (output + k)
  have hlive₂ : ((w.put handle (some inst₁)).put handle (some inst₂)).heap handle = some inst₂ :=
    (World.put_heap ..).trans (if_pos rfl)
  have hptrs : inst₂.portPtrs = (inst.portPtrs.set 0 (input + k)).set 1 (output + k) := by
    rw [hptrs₂, hptrs₁]
  have haim : inst₂.ports n = inst.aim input output k n := by
    unfold Instance.ports Instance.aim
    rw [hptrs]
  have hheap : ∀ inst₃, Function.update
      (Function.update (Function.update w.heap handle (some inst₁)) handle (some inst₂)) handle
        (some inst₃) = Function.update w.heap handle (some inst₃) := by
    intro inst₃
    rw [Function.update_idem, Function.update_idem]
  rw [Transition.run_cons, hstep₁, Option.bind_some, Transition.run_cons, hstep₂, Option.bind_some,
    Transition.run_cons_eq_some]
  constructor
  · rintro ⟨w₃, hrun, hlast⟩
    cases hlast
    obtain ⟨i, plugin, memory, hi, hexec, rfl⟩ := World.step_run_eq_some hrun
    obtain rfl : inst₂ = i := Option.some.inj (hlive₂.symm.trans hi)
    refine ⟨{ inst₂ with plugin := plugin }, memory, ?_, hptrs, ?_⟩
    · rw [← haim, ← hplugin₁, ← hplugin₂]
      exact hexec
    · rw [← haim, ← hheap]
      rfl
  · rintro ⟨inst', memory, hcycle, hptrs', rfl⟩
    have hsame : inst' = { inst₂ with plugin := inst'.plugin } := by
      cases inst'
      congr
      exact hptrs'.trans hptrs.symm
    have hrun : inst₂.run n w.memory = .ok (inst', memory) := by
      have hexec : (P.run inst₂.plugin n).exec (inst₂.ports n) w.memory =
          .ok (inst'.plugin, memory) := by
        rw [haim, hplugin₂, hplugin₁]
        exact hcycle
      unfold Instance.run
      simp only [hexec]
      rw [← hsame]
    refine ⟨_, World.step_of_run hlive₂ hrun, ?_⟩
    rw [← haim, ← hheap]
    rfl

/-- The buffers that were bound before do not matter. -/
theorem Instance.aim_of_aim {inst inst' : Instance P} {input output input' output' : Ptr}
    (hptrs : inst'.portPtrs = (inst.portPtrs.set 0 input').set 1 output') :
    inst'.aim input output = inst.aim input output := by
  funext k n
  unfold aim
  rw [hptrs, List.set_comm output' _ (show (1 : ℕ) ≠ 0 by decide), List.set_set, List.set_set]

/-- What can be seen of a world: the memory, the view of the plugin at a handle, and all that
is elsewhere. -/
def World.outlook (view : σ → υ) (handle : Handle) (w : World P) :
    Memory α × Option υ × (Handle → Option (Instance P)) :=
  (w.memory, (w.heap handle).map fun inst => view inst.plugin, Function.update w.heap handle none)

/-- **Block by block** is piece by piece. -/
theorem World.run_blocks (hP : P.InOut) (view : σ → υ) {w : World P} {handle : Handle}
    {inst : Instance P} (hlive : w.heap handle = some inst) (input output : Ptr) {k : ℕ}
    {ns : List ℕ} :
    (Transition.run World.step w (blocks handle input output k ns)).map (outlook view handle) =
      (P.pieces (inst.aim input output) k ns inst.plugin w.memory).toOption.map fun r =>
        (r.2, some (view r.1), Function.update w.heap handle none) := by
  induction ns generalizing w inst k with
  | nil =>
    change some (outlook view handle w) = _
    rw [outlook, hlive]
    rfl
  | cons n ns ih =>
    have hcalls : (blocks handle input output k (n :: ns) : List (Call α)) =
        [.connectPort handle 0 (input + k), .connectPort handle 1 (output + k), .run handle n] ++
          blocks handle input output (k + n) ns := rfl
    have hblock := World.run_block hP hlive input output k n
    rw [hcalls, Transition.run_append, Plugin.pieces]
    cases hcycle : P.cycle inst.plugin ⟨inst.aim input output k n, w.memory⟩ with
    | error panic =>
      have hnone : Transition.run World.step w [.connectPort handle 0 (input + k),
          .connectPort handle 1 (output + k), .run handle n] = none := by
        rw [Option.eq_none_iff_forall_ne_some]
        intro w' hw'
        obtain ⟨inst', memory, hok, -⟩ := (hblock w').mp hw'
        rw [hcycle] at hok
        cases hok
      rw [hnone]
      rfl
    | ok r =>
      obtain ⟨plugin, memory⟩ := r
      let inst' : Instance P :=
        { plugin := plugin
          portPtrs := (inst.portPtrs.set 0 (input + k)).set 1 (output + k)
          portPtrs_length := by rw [List.length_set, List.length_set, inst.portPtrs_length] }
      have hrun := (hblock _).mpr ⟨inst', memory, hcycle, rfl, rfl⟩
      have haim : inst'.aim input output = inst.aim input output := Instance.aim_of_aim rfl
      rw [hrun, Option.bind_some, ih (Function.update_self ..), haim, Function.update_idem]
      rfl

/-- The sizes of the blocks that a host cuts its two buffers into make no difference. The control
cells may be anywhere but in what is written. -/
def Plugin.SizeBlind (P : Plugin α σ) (view : σ → υ) : Prop :=
  ∀ (w : World P) (handle : Handle) (inst : Instance P) (input output : Ptr) (ns ns' : List ℕ),
    w.heap handle = some inst → ns ≠ [] → ns' ≠ [] → ns.sum = ns'.sum →
    (∀ port ptr, 2 ≤ port → inst.portPtrs[port]? = some ptr →
      ptr ∉ (Slice.mk output ns.sum).region) →
    (Transition.run World.step w (blocks handle input output 0 ns)).map
        (World.outlook view handle) =
      (Transition.run World.step w (blocks handle input output 0 ns')).map
        (World.outlook view handle)

/-- **Any blocks** make the same of the buffers. -/
theorem Framewise.sizeBlind (F : Framewise P view γ τ) (hP : P.InOut) : P.SizeBlind view := by
  intro w handle inst input output ns ns' hlive hns hns' hsum hcontrols
  have hpieces := F.pieces_agree (inst.slides_aim hP input output hcontrols) hns hns' hsum
    (Nat.zero_add _).le inst.plugin w.memory
  have hoption : ∀ r : Except Panic (σ × Memory α), r.toOption.map (fun r =>
      (r.2, some (view r.1), Function.update w.heap handle none)) =
        (r.toOption.map (Prod.map view id)).map fun r =>
          (r.2, some r.1, Function.update w.heap handle none) := by
    intro r
    rw [Option.map_map]
    rfl
  rw [World.run_blocks hP view hlive, World.run_blocks hP view hlive, hoption, hpieces, ← hoption]

end Entry
