import TympanLadspa.Entry.Isolation

/-!
# What the properties promise about buffers

A host owns buffers that do not overlap and binds each port to one of them. Two ports may
share a buffer when one is an audio input, the other an audio output, and the published
properties do not have the bit for plugins that cannot process in place. `Handed` is every
`Ports` value that such a host can make the shims hand to a plugin.
-/

namespace Entry

open Port (Ptr Memory Ports Panic Prog Slice PortKind PortDescriptor)

variable {α σ : Type} {P : Plugin α σ}

/-- The buffers of a host. -/
structure Host where
  buffers : Set Slice
  nonnull : ∀ b ∈ buffers, b.ptr ≠ 0
  apart : buffers.Pairwise fun b c => Disjoint b.region c.region

/-- The port is in the table, with the kind. -/
def Declares (table : List (PortDescriptor α)) (port : ℕ) (kind : PortKind) : Prop :=
  ∃ descriptor, table[port]? = some descriptor ∧ descriptor.kind = kind

/-- Two ports of these kinds may have one buffer. -/
def MayShare (properties : Raw.Properties) (kind kind' : PortKind) : Prop :=
  properties &&& Raw.propertyInplaceBroken = 0#32 ∧
    (kind = .audioInput ∧ kind' = .audioOutput ∨ kind = .audioOutput ∧ kind' = .audioInput)

/-- What a host keeps to at a run: every port is bound to a buffer that is large enough, and
ports share buffers only where the properties let them. -/
structure Host.Conforms (host : Host) (properties : Raw.Properties) (ports : Ports α) :
    Prop where
  bound : ∀ port kind, Declares ports.descriptors port kind →
    ∃ b ∈ host.buffers, ports.ptrs[port]? = some b.ptr ∧ kind.cells ports.frames ≤ b.len
  distinct : ∀ p q kind kind', p ≠ q → Declares ports.descriptors p kind →
    Declares ports.descriptors q kind' → ¬ MayShare properties kind kind' →
    ports.ptrs[p]? ≠ ports.ptrs[q]?

/-- A trace in which the host keeps to the properties at every run. -/
def Host.Follows (host : Host) (properties : Raw.Properties) (w : World P)
    (as : List (Call α)) : Prop :=
  Transition.EachStep World.step (fun w c _ => ∀ handle frames inst,
    c = .run handle frames → w.heap handle = some inst →
    host.Conforms properties (inst.ports frames)) w as

/-- Without runs there is nothing to keep to. -/
theorem Host.Follows.of_forall_ne_run {host : Host} {properties : Raw.Properties} {w : World P}
    {as : List (Call α)} (h : ∀ handle frames, .run handle frames ∉ as) :
    host.Follows properties w as := by
  rintro bs _ cs t u has - - handle frames inst rfl -
  refine absurd ?_ (h handle frames)
  rw [has]
  exact List.mem_append_right bs List.mem_cons_self

/-- The `Ports` a run may be handed: after any trace of a host that keeps to what was
published for the plugin, at a run that keeps to it, of one sample or more. -/
def Handed (P : Plugin α σ) (host : Host) (ports : Ports α) : Prop :=
  ∃ (d : Descriptor α) (memory : Memory α) (as : List (Call α)) (w : World P)
    (handle : Handle) (inst : Instance P) (frames : ℕ),
    P.build = .ok d ∧ Transition.run World.step (.start P memory) as = some w ∧
    host.Follows d.properties (.start P memory) as ∧ w.heap handle = some inst ∧
    1 ≤ frames ∧ ports = inst.ports frames ∧ host.Conforms d.properties ports

/-- On every audio input and audio output, `audio_in_out` gives slices that do not overlap. -/
def Apart (ports : Ports α) : Prop :=
  ∀ i o, Declares ports.descriptors i .audioInput → Declares ports.descriptors o .audioOutput →
    ∃ input output, ports.audioInOut i o = .ok (input, output) ∧
      Disjoint input.region output.region

theorem region_subset (b : Slice) {frames : ℕ} (hlen : frames ≤ b.len) :
    (Slice.mk b.ptr frames).region ⊆ b.region :=
  fun _ hp => ⟨hp.1, lt_of_lt_of_le hp.2 (Nat.add_le_add_left hlen _)⟩

/-- A slice that is not empty overlaps itself. -/
theorem not_disjoint_region (ptr : Ptr) {frames : ℕ} (hframes : 1 ≤ frames) :
    ¬ Disjoint (Slice.mk ptr frames).region (Slice.mk ptr frames).region := by
  have hmem : ptr ∈ (Slice.mk ptr frames).region := ⟨le_rfl, Nat.lt_add_of_pos_right hframes⟩
  exact Set.not_disjoint_iff.mpr ⟨ptr, hmem, hmem⟩

namespace Host.Conforms

variable {host : Host} {properties : Raw.Properties} {ports : Ports α}

/-- `audio_in_out` lends what is bound. -/
theorem audioInOut (h : host.Conforms properties ports) {i o : ℕ}
    (hi : Declares ports.descriptors i .audioInput)
    (ho : Declares ports.descriptors o .audioOutput) :
    ∃ b ∈ host.buffers, ∃ c ∈ host.buffers,
      ports.audioInOut i o = .ok (⟨b.ptr, ports.frames⟩, ⟨c.ptr, ports.frames⟩) ∧
      ports.ptrs[i]? = some b.ptr ∧ ports.ptrs[o]? = some c.ptr ∧
      ports.frames ≤ b.len ∧ ports.frames ≤ c.len := by
  obtain ⟨b, hb, hbptr, hblen⟩ := h.bound i _ hi
  obtain ⟨c, hc, hcptr, hclen⟩ := h.bound o _ ho
  refine ⟨b, hb, c, hc, Ports.audioInOut_eq_ok.mpr ⟨?_, ?_⟩, hbptr, hcptr, hblen, hclen⟩
  · exact Ports.audioInput_eq_ok.mpr ⟨Ports.access_eq_ok.mpr ⟨hi, hbptr⟩, rfl⟩
  · exact Ports.audioOutput_eq_ok.mpr ⟨Ports.access_eq_ok.mpr ⟨ho, hcptr⟩, rfl⟩

/-- The slices overlap only when an audio output has the buffer of an audio input. -/
theorem apart_iff (h : host.Conforms properties ports) (hframes : 1 ≤ ports.frames) :
    Apart ports ↔ ∀ i o, Declares ports.descriptors i .audioInput →
      Declares ports.descriptors o .audioOutput → ports.ptrs[i]? ≠ ports.ptrs[o]? := by
  constructor
  · intro happart i o hi ho heq
    obtain ⟨input, output, hok, hdisjoint⟩ := happart i o hi ho
    obtain ⟨b, -, c, -, hok', hbptr, hcptr, -⟩ := h.audioInOut hi ho
    rw [hok'] at hok
    cases hok
    rw [hbptr, hcptr] at heq
    rw [Option.some.inj heq] at hdisjoint
    exact not_disjoint_region c.ptr hframes hdisjoint
  · intro hne i o hi ho
    obtain ⟨b, hb, c, hc, hok, hbptr, hcptr, hblen, hclen⟩ := h.audioInOut hi ho
    refine ⟨_, _, hok, ?_⟩
    have hbc : b ≠ c := by
      rintro rfl
      exact hne i o hi ho (hbptr.trans hcptr.symm)
    exact (host.apart hb hc hbc).mono (region_subset b hblen) (region_subset c hclen)

end Host.Conforms

/-- The properties that are published are those of the plugin. -/
theorem Handed.conforms {host : Host} {ports : Ports α} (h : Handed P host ports) :
    host.Conforms P.properties ports ∧ ports.descriptors = P.ports ∧ 1 ≤ ports.frames := by
  obtain ⟨d, memory, as, w, handle, inst, frames, hbuild, -, -, -, hframes, rfl, hconforms⟩ := h
  rw [Plugin.build_properties hbuild] at hconforms
  exact ⟨hconforms, rfl, hframes⟩

/-- Connecting the ports of a live instance one after the other. -/
theorem connect_range {w : World P} {handle : Handle} {inst : Instance P}
    (hlive : w.heap handle = some inst) (address : ℕ → Ptr) {k : ℕ} (hk : k ≤ P.ports.length) :
    ∃ w' inst', Transition.run World.step w
        ((List.range k).map fun p => .connectPort handle p (address p)) = some w' ∧
      w'.heap handle = some inst' ∧ ∀ p < k, inst'.portPtrs[p]? = some (address p) := by
  induction k with
  | zero => exact ⟨w, inst, rfl, hlive, nofun⟩
  | succ k ih =>
    obtain ⟨w', inst', hrun, hlive', hptrs⟩ := ih (Nat.le_of_succ_le hk)
    have hport : k < inst'.portPtrs.length := inst'.portPtrs_length ▸ hk
    obtain ⟨inst'', hconnect⟩ : ∃ inst'', inst'.connectPort k (address k) = .ok inst'' :=
      ⟨_, if_pos hport⟩
    refine ⟨w'.put handle (some inst''), inst'', ?_, (World.put_heap ..).trans (if_pos rfl), ?_⟩
    · rw [List.range_succ, List.map_append]
      refine Transition.run_concat_eq_some.mpr ⟨w', hrun, ?_⟩
      simp only [World.step, World.connectPortShim, World.deref_eq_ok.mpr hlive', bind,
        Except.bind, hconnect]
      rfl
    · intro p hp
      rw [(Instance.connectPort_eq_ok hconnect).2.2]
      by_cases hkp : k = p
      · rw [← hkp, List.getElem?_set_self hport]
      · rw [List.getElem?_set_ne hkp]
        exact hptrs p (by omega)

/-- The host that owns every cell as a buffer of its own. -/
def Host.cells : Host where
  buffers := {b | b.ptr ≠ 0 ∧ b.len = 1}
  nonnull := fun _ hb => hb.1
  apart := by
    rintro ⟨p, _⟩ ⟨-, rfl⟩ ⟨q, _⟩ ⟨-, rfl⟩ hne
    have hpq : p ≠ q := by
      rintro rfl
      exact hne rfl
    refine Set.disjoint_left.mpr fun a ha ha' => hpq ?_
    obtain ⟨hp, hp'⟩ : p ≤ a ∧ a < p + 1 := ha
    obtain ⟨hq, hq'⟩ : q ≤ a ∧ a < q + 1 := ha'
    exact le_antisymm (Nat.le_of_lt_succ (lt_of_le_of_lt hp hq'))
      (Nat.le_of_lt_succ (lt_of_le_of_lt hq hp'))

/-- Any binding of the ports to cells that conforms comes about. -/
theorem handed_of_address {d : Descriptor α} (hbuild : P.build = .ok d) {rate : BitVec 32}
    {plugin : σ} (hok : P.instantiate rate = .ok plugin) (memory : Memory α)
    (host : Host) (address : ℕ → Ptr) {frames : ℕ} (hframes : 1 ≤ frames)
    (hconforms : ∀ ports : Ports α, ports.descriptors = P.ports → ports.frames = frames →
      (∀ p < P.ports.length, ports.ptrs[p]? = some (address p)) →
      host.Conforms d.properties ports) :
    ∃ ports, Handed P host ports ∧
      ∀ p < P.ports.length, ports.ptrs[p]? = some (address p) := by
  have hrate : (rate.setWidth 64).setWidth 32 = rate := by simp
  have hborn : (World.start P memory).step (.instantiate (rate.setWidth 64) 1) =
      some ((World.start P memory).put 1 (some (.new P plugin))) := by
    simp [World.step, World.start, World.instantiateShim, hok]
  obtain ⟨w, inst, hrun, hlive, hptrs⟩ := connect_range (w := (World.start P memory).put 1 _)
    ((World.put_heap ..).trans (if_pos rfl)) address le_rfl
  exact ⟨inst.ports frames, ⟨d, memory, _ :: _, w, 1, inst, frames, hbuild,
    Transition.run_cons_eq_some.mpr ⟨_, hborn, hrun⟩, .of_forall_ne_run (by simp), hlive,
    hframes, rfl, hconforms _ rfl rfl hptrs⟩, hptrs⟩

/-- A port has one kind. -/
theorem Declares.kind_eq {table : List (PortDescriptor α)} {port : ℕ} {kind kind' : PortKind}
    (h : Declares table port kind) (h' : Declares table port kind') : kind = kind' := by
  obtain ⟨d, hd, rfl⟩ := h
  obtain ⟨e, he, rfl⟩ := h'
  rw [hd] at he
  rw [Option.some.inj he]

theorem Declares.lt_length {table : List (PortDescriptor α)} {port : ℕ} {kind : PortKind}
    (h : Declares table port kind) : port < table.length :=
  h.elim fun _ hd => (List.getElem?_eq_some_iff.mp hd.1).1

/-- A cell for each port, but the one of `i` for `o`. -/
def sharedCell (i o p : ℕ) : Ptr := if p = o then i + 1 else p + 1

theorem sharedCell_ne_zero (i o p : ℕ) : sharedCell i o p ≠ 0 := by
  unfold sharedCell
  split <;> exact Nat.succ_ne_zero _

theorem sharedCell_inj {i o p q : ℕ} (hpq : p ≠ q) (h : sharedCell i o p = sharedCell i o q) :
    p = i ∧ q = o ∨ p = o ∧ q = i := by
  unfold sharedCell at h
  split at h <;> split at h <;> have h := Nat.succ.inj h <;> omega

/-- Without the bit, an audio input and an audio output can be handed over in one buffer. -/
theorem exists_handed_shared {d : Descriptor α} (hbuild : P.build = .ok d) {rate : BitVec 32}
    {plugin : σ} (hok : P.instantiate rate = .ok plugin)
    (hbit : P.properties &&& Raw.propertyInplaceBroken = 0#32) {i o : ℕ}
    (hi : Declares P.ports i .audioInput) (ho : Declares P.ports o .audioOutput) :
    ∃ ports, Handed P .cells ports ∧ ports.ptrs[i]? = ports.ptrs[o]? := by
  have hio : i ≠ o := by
    rintro rfl
    cases hi.kind_eq ho
  obtain ⟨memory⟩ : Nonempty (Memory α) := hi.elim fun descriptor _ =>
    ⟨fun _ => descriptor.hints.lower⟩
  have hconforms : ∀ ports : Ports α, ports.descriptors = P.ports → ports.frames = 1 →
      (∀ p < P.ports.length, ports.ptrs[p]? = some (sharedCell i o p)) →
      Host.cells.Conforms d.properties ports := by
    intro ports hdescriptors hframes hptrs
    rw [Plugin.build_properties hbuild]
    constructor
    · intro port kind hport
      rw [hdescriptors] at hport
      refine ⟨⟨_, 1⟩, ⟨sharedCell_ne_zero i o port, rfl⟩, hptrs port hport.lt_length, ?_⟩
      rw [hframes]
      cases kind <;> exact le_rfl
    · intro p q kind kind' hpq hp hq hshare heq
      rw [hdescriptors] at hp hq
      rw [hptrs p hp.lt_length, hptrs q hq.lt_length] at heq
      refine hshare ⟨hbit, ?_⟩
      rcases sharedCell_inj hpq (Option.some.inj heq) with ⟨rfl, rfl⟩ | ⟨rfl, rfl⟩
      · exact .inl ⟨hp.kind_eq hi, hq.kind_eq ho⟩
      · exact .inr ⟨hp.kind_eq ho, hq.kind_eq hi⟩
  obtain ⟨ports, hhanded, hptrs⟩ :=
    handed_of_address hbuild hok memory .cells (sharedCell i o) le_rfl hconforms
  refine ⟨ports, hhanded, ?_⟩
  rw [hptrs i hi.lt_length, hptrs o ho.lt_length, sharedCell, sharedCell, if_neg hio, if_pos rfl]

/-- A live instance is one of a plugin that was made. -/
theorem instantiate_of_live {memory : Memory α} {as : List (Call α)} {w : World P}
    {handle : Handle} {inst : Instance P}
    (hrun : Transition.run World.step (.start P memory) as = some w)
    (hlive : w.heap handle = some inst) : ∃ rate plugin, P.instantiate rate = .ok plugin := by
  obtain ⟨before, sampleRate, plugin, calls, -, hok, -⟩ := life_at hrun hlive
  exact ⟨_, plugin, hok⟩

/-- **When `audio_in_out` is sound.** In a run that a host may make, its slices are apart
exactly when no audio output is bound where an audio input is. A plugin that can be
published and instantiated is safe from such a run exactly when it has the bit or lacks one
of the two kinds of ports. -/
theorem apart_iff_published (P : Plugin α σ) :
    (∀ host ports, Handed P host ports →
      (Apart ports ↔ ∀ i o, Declares P.ports i .audioInput →
        Declares P.ports o .audioOutput → ports.ptrs[i]? ≠ ports.ptrs[o]?)) ∧
      ((∀ host ports, Handed P host ports → Apart ports) ↔
        P.properties &&& Raw.propertyInplaceBroken ≠ 0#32 ∨
          (∀ i, ¬ Declares P.ports i .audioInput) ∨ (∀ o, ¬ Declares P.ports o .audioOutput) ∨
          (∀ rate plugin, P.instantiate rate ≠ .ok plugin) ∨ ∀ d, P.build ≠ .ok d) := by
  have hiff : ∀ host ports, Handed P host ports →
      (Apart ports ↔ ∀ i o, Declares P.ports i .audioInput →
        Declares P.ports o .audioOutput → ports.ptrs[i]? ≠ ports.ptrs[o]?) := by
    intro host ports h
    obtain ⟨hconforms, hdescriptors, hframes⟩ := h.conforms
    rw [hconforms.apart_iff hframes, hdescriptors]
  refine ⟨hiff, ?_, ?_⟩
  · intro hsound
    by_contra hnot
    push Not at hnot
    obtain ⟨hbit, ⟨i, hi⟩, ⟨o, ho⟩, ⟨rate, plugin, hok⟩, d, hbuild⟩ := hnot
    obtain ⟨ports, hhanded, hshared⟩ := exists_handed_shared hbuild hok hbit hi ho
    exact (hiff _ ports hhanded).mp (hsound _ ports hhanded) i o hi ho hshared
  · intro hcond host ports h
    refine (hiff host ports h).mpr fun i o hi ho => ?_
    obtain ⟨hconforms, hdescriptors, -⟩ := h.conforms
    obtain ⟨d, memory, as, w, handle, inst, frames, hbuild, hrun, -, hlive, -⟩ := h
    obtain ⟨rate, plugin, hok⟩ := instantiate_of_live hrun hlive
    rcases hcond with hbit | hinput | houtput | hnever | hunbuilt
    · rw [← hdescriptors] at hi ho
      refine hconforms.distinct i o _ _ ?_ hi ho fun hshare => hbit hshare.1
      rintro rfl
      cases hi.kind_eq ho
    · exact absurd hi (hinput i)
    · exact absurd ho (houtput o)
    · exact absurd hok (hnever rate plugin)
    · exact absurd hbuild (hunbuilt d)

/-- A host with one buffer of 64 samples and one control. -/
def Host.mono : Host where
  buffers := {⟨10, 64⟩, ⟨200, 1⟩}
  nonnull := by
    rintro b (rfl | rfl) <;> decide
  apart := by
    have hdisjoint : Disjoint (Slice.mk 10 64).region (Slice.mk 200 1).region :=
      Set.disjoint_left.mpr fun a ha ha' =>
        absurd (lt_of_le_of_lt ha'.1 ha.2) (by decide)
    exact Set.pairwise_pair.mpr fun _ => ⟨hdisjoint, hdisjoint.symm⟩

/-- The gain plugin leaves the properties as they are, and a host that runs it in place hands
it two slices on one buffer. -/
theorem gain_overlaps_in_place :
    (Gain.plugin : Plugin ℕ Unit).properties = 0#32 ∧
      Handed (Gain.plugin : Plugin ℕ Unit) .mono ⟨[10, 10, 200], Gain.ports, 64⟩ ∧
      (⟨[10, 10, 200], Gain.ports, 64⟩ : Ports ℕ).audioInOut 0 1 =
        .ok (⟨10, 64⟩, ⟨10, 64⟩) ∧
      ¬ Apart (⟨[10, 10, 200], Gain.ports, 64⟩ : Ports ℕ) := by
  have hok : (⟨[10, 10, 200], Gain.ports, 64⟩ : Ports ℕ).audioInOut 0 1 =
      .ok (⟨10, 64⟩, ⟨10, 64⟩) := rfl
  refine ⟨rfl, ?_, hok, ?_⟩
  · refine ⟨_, fun ptr => ptr, [.instantiate 48000#64 1, .connectPort 1 0 10,
      .connectPort 1 1 10, .connectPort 1 2 200], _, 1, _, 64, rfl, rfl,
      .of_forall_ne_run (by simp), rfl, by decide, rfl, ?_, ?_⟩
    · rintro port kind ⟨d, hd, rfl⟩
      match port, hd with
      | 0, hd | 1, hd =>
        cases hd
        exact ⟨⟨10, 64⟩, .inl rfl, rfl, le_rfl⟩
      | 2, hd =>
        cases hd
        exact ⟨⟨200, 1⟩, .inr rfl, rfl, le_rfl⟩
    · intro p q kind kind' hpq hp hq hshare heq
      have hshared : ∀ p < 3, ∀ q < 3,
          ([10, 10, 200] : List ℕ)[p]? = ([10, 10, 200] : List ℕ)[q]? →
          (p = 0 ∧ q = 1) ∨ (p = 1 ∧ q = 0) ∨ p = q := by decide
      have hin : Declares (Gain.ports : List (PortDescriptor ℕ)) 0 .audioInput := ⟨_, rfl, rfl⟩
      have hout : Declares (Gain.ports : List (PortDescriptor ℕ)) 1 .audioOutput :=
        ⟨_, rfl, rfl⟩
      rcases hshared p hp.lt_length q hq.lt_length heq with ⟨rfl, rfl⟩ | ⟨rfl, rfl⟩ | rfl
      · exact hshare ⟨rfl, .inl ⟨hp.kind_eq hin, hq.kind_eq hout⟩⟩
      · exact hshare ⟨rfl, .inr ⟨hp.kind_eq hout, hq.kind_eq hin⟩⟩
      · exact hpq rfl
  · intro happart
    obtain ⟨input, output, hok', hdisjoint⟩ := happart 0 1 ⟨_, rfl, rfl⟩ ⟨_, rfl, rfl⟩
    rw [hok] at hok'
    cases hok'
    exact not_disjoint_region 10 (by decide) hdisjoint

end Entry
