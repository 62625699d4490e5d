import TympanLadspa.Realtime.LogFlush

/-!
# A log that is long enough

`log` returns false when the ring is full, and it can be full only of events that were logged:
as long as no more have been logged than there are slots, every call has returned true, however
late the drainer is.
-/

open Ring (Counters PushStep PopStep)

variable {w : ℕ} {α : Type*}

/-- No value has been refused, and none is about to be. -/
structure Ring.Roomy (s : Ring.State w α) : Prop where
  offered_length : s.accepted.length + s.producer.offering.length = s.offered.length
  rejected : s.rejected = []
  not_full : ∀ value, s.producer ≠ .full value

namespace Ring.Roomy

variable {s t : Ring.State w α}

theorem start (inner : Ring.Inner w α) : Roomy (.start inner) where
  offered_length := rfl
  rejected := rfl
  not_full := nofun

/-- A value is refused only when as many have been accepted as there are slots. -/
theorem pushStep {a : PushAct α} (h : Roomy s) (hc : Counters s)
    (hfits : t.offered.length ≤ s.inner.capacity.toNat) (hstep : PushStep s a t) : Roomy t := by
  have hlength := h.offered_length
  cases hstep with
  | loadTail hpc =>
    rw [hpc] at hlength
    exact
      { offered_length := by simpa [PushPc.offering] using hlength
        rejected := h.rejected
        not_full := by simp }
  | @full value tail head place hpc hseen hread hfull =>
    exfalso
    obtain ⟨hplace, rfl⟩ := hc.heads.read_eq_some hread
    have hok := hc.producer_ok
    rw [hpc] at hok
    have htail : tail = BitVec.ofNat w s.inner.tail.count := hok
    rw [htail, hc.full_iff hseen hplace] at hfull
    have haccepted := hc.accepted_length
    rw [hpc] at hlength
    simp only [PushPc.offering, List.length_singleton] at hlength hfits
    omega
  | vacant hpc hseen hread hroom =>
    rw [hpc] at hlength
    exact { offered_length := hlength, rejected := h.rejected, not_full := by simp }
  | returnErr hpc => exact absurd hpc (h.not_full _)
  | write hpc =>
    rw [hpc] at hlength
    exact { offered_length := hlength, rejected := h.rejected, not_full := by simp }
  | storeTail hpc =>
    rw [hpc] at hlength
    exact
      { offered_length := by simpa [PushPc.offering] using hlength
        rejected := h.rejected
        not_full := by simp }

theorem popStep {a : PopAct} (h : Roomy s) (hstep : PopStep s a t) : Roomy t := by
  obtain ⟨hproducer, haccepted, hrejected⟩ := hstep.frame
  have hoffered : t.offered = s.offered := by cases hstep <;> rfl
  exact
    { offered_length := by
        rw [haccepted, hproducer, hoffered]
        exact h.offered_length
      rejected := hrejected.trans h.rejected
      not_full := by
        rw [hproducer]
        exact h.not_full }

end Ring.Roomy

/-- What has been offered stays offered. -/
theorem Ring.offered_le_of_step {s t : Ring.State w α} {a : Ring.Act α}
    (h : Ring.step s a = some t) : s.offered.length ≤ t.offered.length := by
  rcases Ring.step_cases h with ⟨b, -, hpush⟩ | ⟨b, -, hpop⟩
  · cases hpush <;> simp
  · cases hpop <;> exact le_rfl

namespace LogSink

variable {panicAt : Option ℕ} {s t : State w α}

/-- **Step.** -/
theorem Step.roomy {a : Act α} (h : Step panicAt s a t) (hc : Counters s.ring)
    (hfits : t.ring.offered.length ≤ t.ring.inner.capacity.toNat) (hroomy : Ring.Roomy s.ring) :
    Ring.Roomy t.ring := by
  rw [h.capacity_eq] at hfits
  rcases h.ring_cases with heq | ⟨b, hb⟩ | ⟨place, heq⟩
  · rwa [heq]
  · rcases Ring.step_cases hb with ⟨c, -, hpush⟩ | ⟨c, -, hpop⟩
    · exact hroomy.pushStep hc hfits hpush
    · exact hroomy.popStep hpop
  · rw [heq]
    exact ⟨hroomy.offered_length, hroomy.rejected, hroomy.not_full⟩

theorem Step.offered_le {a : Act α} (h : Step panicAt s a t) :
    s.ring.offered.length ≤ t.ring.offered.length := by
  rcases h.ring_cases with heq | ⟨b, hb⟩ | ⟨place, heq⟩
  · rw [heq]
  · exact Ring.offered_le_of_step hb
  · rw [heq]
    exact le_rfl

/-- **Run.** While no more events have been logged than there are slots, none is refused. -/
theorem all_logged {capacity : BitVec w} {s₀ : State w α} (hnew : new capacity = .ok s₀)
    (hreach : Transition.Reaches (step panicAt) s₀ s)
    (hfits : s.ring.offered.length ≤ capacity.toNat) : ∀ r ∈ s.results, r.2 = true := by
  obtain ⟨inner, hch, rfl⟩ := new_eq_ok hnew
  have hcap : s.ring.inner.capacity = capacity :=
    (capacity_of_reaches hreach).trans (Ring.channel_eq_ok hch).2.1
  have hinv : Sound panicAt s ∧ Ring.Roomy s.ring := by
    refine hreach.guarded_invariant
      (G := fun u => u.ring.offered.length ≤ u.ring.inner.capacity.toNat)
      (I := fun u => Sound panicAt u ∧ Ring.Roomy u.ring) ?_ ?_
      (fun _ => ⟨.of_new hnew, .start inner⟩) (hcap ▸ hfits)
    · intro u a v hstep hv
      have h := step_cases hstep
      rw [← h.capacity_eq]
      exact h.offered_le.trans hv
    · rintro u a v hu hv ⟨hsound, hroomy⟩ hstep
      exact ⟨hsound.step hstep, (step_cases hstep).roomy hsound.counters hv hroomy⟩
  obtain ⟨hsound, hroomy⟩ := hinv
  have hlength := hroomy.offered_length
  have hevents := congrArg List.length hsound.results_events
  have htrue := congrArg List.length hsound.results_true
  rw [List.length_append, List.length_map] at hevents
  rw [List.length_map] at htrue
  exact List.length_filter_eq_length_iff.mp (by omega)

/-- Behind `LogSink::drop` all that was accepted has been drained. -/
theorem drained_of_dropped (hsound : Sound none s) (hslots : Ring.Slots s.ring)
    (hdrop : s.logger = .dropped) : s.drained = s.ring.accepted := by
  have hexit : s.drainer = .exited := by
    refine (hsound.joined hdrop).resolve_right fun hpanic => ?_
    cases hsound.panicked hpanic
  have hpopped : s.drained = s.ring.popped := by
    have := hsound.popped
    rw [hexit] at this
    simpa [DrainerPc.inHand] using this
  rw [hpopped]
  exact popped_eq_accepted hslots hsound.counters (hsound.exited hexit)

end LogSink
