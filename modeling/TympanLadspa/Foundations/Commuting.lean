import TympanLadspa.Foundations.Transition

/-!
# Actions that commute

Actions come with tags, and two actions of different tags can be taken in either order.
Then two lists of actions with the same actions for each tag, in the same order, lead to
states that cannot be told apart.
-/

namespace Transition

variable {σ ι κ : Type*} {step : σ → ι → Option σ} {tag : ι → κ} {A : ι → Prop} {I : σ → Prop}
  {E : σ → σ → Prop}

/-- From states of `I`, two actions of `A` with different tags can be taken in either order;
`E` is what cannot be told apart. -/
structure Commutes (step : σ → ι → Option σ) (tag : ι → κ) (A : ι → Prop) (I : σ → Prop)
    (E : σ → σ → Prop) : Prop where
  keeps : ∀ {s t a}, I s → A a → step s a = some t → I t
  refl : ∀ s, E s s
  trans : ∀ {s t u}, E s t → E t u → E s u
  congr : ∀ {s s' t a}, E s s' → step s a = some t → ∃ t', step s' a = some t' ∧ E t t'
  swap : ∀ {s t u a b}, I s → A a → A b → tag a ≠ tag b → step s a = some t →
    step t b = some u → ∃ t' u', step s b = some t' ∧ step t' a = some u' ∧ E u u'

namespace Commutes

variable {s s' t : σ} {as bs : List ι} {b : ι}

theorem run_congr (h : Commutes step tag A I E) (hE : E s s') (hrun : run step s as = some t) :
    ∃ t', run step s' as = some t' ∧ E t t' := by
  induction as generalizing s s' with
  | nil =>
    cases hrun
    exact ⟨s', rfl, hE⟩
  | cons a as ih =>
    obtain ⟨u, hu, hrest⟩ := run_cons_eq_some.mp hrun
    obtain ⟨u', hu', hEu⟩ := h.congr hE hu
    obtain ⟨t', ht', hEt⟩ := ih hEu hrest
    exact ⟨t', run_cons_eq_some.mpr ⟨u', hu', ht'⟩, hEt⟩

/-- An action can be taken before those of other tags in front of it. -/
theorem run_front (h : Commutes step tag A I E) (hs : I s) (hA : ∀ a ∈ as, A a) (hb : A b)
    (htag : ∀ a ∈ as, tag a ≠ tag b) (hrun : run step s (as ++ b :: bs) = some t) :
    ∃ t', run step s (b :: (as ++ bs)) = some t' ∧ E t t' := by
  induction as generalizing s with
  | nil => exact ⟨t, hrun, h.refl t⟩
  | cons a as ih =>
    obtain ⟨u, hu, hrest⟩ := run_cons_eq_some.mp hrun
    have ha := hA a List.mem_cons_self
    obtain ⟨t₁, hrun₁, hE₁⟩ := ih (h.keeps hs ha hu)
      (fun c hc => hA c (List.mem_cons_of_mem a hc))
      (fun c hc => htag c (List.mem_cons_of_mem a hc)) hrest
    obtain ⟨v, hv, hrest₁⟩ := run_cons_eq_some.mp hrun₁
    -- the action is behind `a` now
    obtain ⟨u', v', hu', hv', hE⟩ := h.swap hs ha hb (htag a List.mem_cons_self) hu hv
    obtain ⟨t', ht', hE'⟩ := h.run_congr hE hrest₁
    refine ⟨t', run_cons_eq_some.mpr ⟨u', hu', ?_⟩, h.trans hE₁ hE'⟩
    exact run_cons_eq_some.mpr ⟨v', hv', ht'⟩

variable [DecidableEq κ]

/-- A list with nothing for any tag is empty. -/
private theorem eq_nil_of_filter (h : ∀ k, as.filter (fun a => tag a = k) = []) : as = [] := by
  cases as with
  | nil => rfl
  | cons a as =>
    have hnil := h (tag a)
    rw [List.filter_cons_of_pos (by simp)] at hnil
    cases hnil

/-- **The order between tags is free**: two lists with the same actions for each tag, in the
same order, lead to states that cannot be told apart. -/
theorem run_of_filter_eq (h : Commutes step tag A I E) (hs : I s) (hA : ∀ a ∈ as, A a)
    (hfilter : ∀ k, as.filter (fun a => tag a = k) = bs.filter (fun a => tag a = k))
    (hrun : run step s as = some t) : ∃ t', run step s bs = some t' ∧ E t t' := by
  induction bs generalizing s as t with
  | nil =>
    obtain rfl := eq_nil_of_filter hfilter
    exact ⟨t, hrun, h.refl t⟩
  | cons b bs ih =>
    have hb := hfilter (tag b)
    rw [List.filter_cons_of_pos (by simp)] at hb
    obtain ⟨as₁, as₂, rfl, hother, -, hrest⟩ := List.filter_eq_cons_iff.mp hb
    have htag : ∀ a ∈ as₁, tag a ≠ tag b := fun a ha heq => hother a ha (decide_eq_true heq)
    have hAb := hA b (List.mem_append_right as₁ List.mem_cons_self)
    obtain ⟨t₁, hrun₁, hE₁⟩ := h.run_front hs
      (fun a ha => hA a (List.mem_append_left _ ha)) hAb htag hrun
    obtain ⟨u, hu, hrest₁⟩ := run_cons_eq_some.mp hrun₁
    have hmem : ∀ a ∈ as₁ ++ as₂, A a := by
      intro a ha
      apply hA a
      rcases List.mem_append.mp ha with ha | ha
      · exact List.mem_append_left _ ha
      · exact List.mem_append_right _ (List.mem_cons_of_mem b ha)
    have hsame : ∀ k, (as₁ ++ as₂).filter (fun a => tag a = k) =
        bs.filter (fun a => tag a = k) := by
      intro k
      have hk := hfilter k
      rw [List.filter_append] at hk ⊢
      by_cases htk : tag b = k
      · rw [List.filter_cons_of_pos (by simpa using htk),
          List.filter_cons_of_pos (by simpa using htk)] at hk
        have hnone : as₁.filter (fun a => tag a = k) = [] := by
          rw [List.filter_eq_nil_iff]
          intro a ha heq
          exact htag a ha ((of_decide_eq_true heq).trans htk.symm)
        rw [hnone] at hk ⊢
        exact (List.cons.inj hk).2
      · rwa [List.filter_cons_of_neg (by simpa using htk),
          List.filter_cons_of_neg (by simpa using htk)] at hk
    obtain ⟨t', ht', hE'⟩ := ih (h.keeps hs hAb hu) hmem hsame hrest₁
    exact ⟨t', run_cons_eq_some.mpr ⟨u, hu, ht'⟩, h.trans hE₁ hE'⟩

end Commutes

end Transition
