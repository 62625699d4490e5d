import TympanLadspa.Examples.DelayPass
import TympanLadspa.Examples.DelayRecurrence
import TympanLadspa.Port.NaN

/-!
# Delaying and nothing else

Fully wet and without feedback, the delay shifts its input, for every offset but zero: the
slot that is read then is the one written next, and what comes out is as old as the line is
long. A sample that is no finite number does not come through either: what is mixed in of it
is nothing, and nothing times NaN, as nothing times an infinity, is NaN.
-/

namespace Delay

open Port (Memory Sample WithNaN)
open Port.WithNaN (nan isNum_zero)
open DelayLine (past zeros)

/-- The samples that a sequence of calls processes. -/
def inputs {α : Type} (rs : List (Request α)) : List α :=
  rs.flatMap fun r => r.input.take r.output.length

/-- The tap with the steps that are read back. -/
def Tap.around {α : Type} (len : ℕ) (tap : Tap α) : Tap α :=
  { tap with steps := stepsBack len tap.steps }

theorem signal_samples {α : Type} (len : ℕ) (rs : List (Request α)) :
    (signal len rs).map Tap.sample = inputs rs := by
  simp only [signal, inputs, List.map_flatMap, Request.taps, List.map_map]
  congr 1
  funext r
  exact List.map_id'' (fun _ => rfl) _

theorem stream_around {α : Type} [Sample α] (l : DelayLine α) (taps : List (Tap α)) :
    stream l (taps.map (Tap.around l.len)) = stream l taps := by
  induction taps generalizing l with
  | nil => rfl
  | cons tap taps ih =>
    have hago : l.ago (Tap.around l.len tap).steps = l.ago tap.steps := by
      show l.ago (stepsBack l.len tap.steps) = _
      by_cases hzero : tap.steps = 0
      · rw [stepsBack, if_pos hzero, hzero, l.ago_zero]
      · rw [stepsBack, if_neg hzero]
    have hrest := ih (l.push (tap.kept (l.ago tap.steps)))
    rw [DelayLine.len_push] at hrest
    have hkept : (Tap.around l.len tap).kept = tap.kept := rfl
    have hout : (Tap.around l.len tap).out = tap.out := rfl
    rw [List.map_cons, stream_cons, stream_cons, hago, hkept, hout, hrest]

/-- A tap that is only delayed. -/
def Tap.IsWet (steps : ℕ) (tap : Tap WithNaN) : Prop :=
  tap.steps = steps ∧ tap.feedback = 0 ∧ tap.mix = 1

/-- Every output sample is made of its input sample and some cell. -/
theorem stream_out {α : Type} [Sample α] {l : DelayLine α} {taps : List (Tap α)} {n : ℕ}
    {tap : Tap α} (h : taps[n]? = some tap) : ∃ y, (stream l taps).1[n]? = some (tap.out y) := by
  induction taps generalizing l n with
  | nil => cases h
  | cons t taps ih =>
    rw [stream_cons]
    cases n with
    | zero =>
      obtain rfl := Option.some.inj h
      exact ⟨_, rfl⟩
    | succ n => exact ih h

/-- What comes out is the sample that went in as many steps ago as are read back. -/
theorem stream_wet {len start d : ℕ} (hstart : start < len) (hd : d < len)
    {taps : List (Tap WithNaN)} (hwet : ∀ tap ∈ taps, tap.IsWet d)
    (hnum : ∀ tap ∈ taps, tap.sample.IsNum) {n : ℕ} (hn : n < taps.length) :
    (stream (zeros WithNaN hstart) taps).1[n]? =
      if stepsBack len d ≤ n then (taps.map Tap.sample)[n - stepsBack len d]? else some 0 := by
  have hlen : 0 < len := Nat.zero_lt_of_lt hd
  set around := taps.map (Tap.around len) with haround
  have htap : ∀ tap ∈ around, tap.IsWet (stepsBack len d) ∧ tap.sample.IsNum := by
    intro tap htap
    obtain ⟨t, ht, rfl⟩ := List.mem_map.mp htap
    obtain ⟨hsteps, hfeedback, hmix⟩ := hwet t ht
    exact ⟨⟨congrArg (stepsBack len) hsteps, hfeedback, hmix⟩, hnum t ht⟩
  have hsteps : ∀ tap ∈ around, 1 ≤ tap.steps ∧ tap.steps ≤ (zeros WithNaN hstart).len := by
    intro tap ht
    rw [(htap tap ht).1.1, DelayLine.len_zeros]
    exact ⟨stepsBack_pos hlen d, stepsBack_le hd.le⟩
  -- without feedback the history is the input, as long as that is numbers
  have hhistory : ∀ k tap, around[k]? = some tap → echo around k = tap.sample := by
    intro k
    induction k using Nat.strong_induction_on with
    | h k ih =>
      intro tap hk
      obtain ⟨⟨-, hfeedback, -⟩, -⟩ := htap tap (List.mem_of_getElem? hk)
      have hpos := (hsteps tap (List.mem_of_getElem? hk)).1
      have hpast : (past (echo around) k tap.steps).IsNum := by
        rw [past]
        split
        · have hold : k - tap.steps < around.length :=
            lt_of_le_of_lt (Nat.sub_le _ _) (List.getElem?_eq_some_iff.mp hk).1
          rw [ih (k - tap.steps) (by omega) _ (List.getElem?_eq_getElem hold)]
          exact (htap _ (List.getElem_mem hold)).2
        · exact isNum_zero
      rw [echo_eq hk hpos, Tap.kept, hfeedback]
      exact WithNaN.add_zero_mul _ hpast
  have hall : ∀ k, around[k]? = around[0 + k]? := fun k => by
    rw [Nat.zero_add]
  obtain ⟨-, houts⟩ := stream_echo hall (DelayLine.zeros_holds hstart _) hsteps
  have hget : around[n]? = some (Tap.around len taps[n]) := by
    rw [haround, List.getElem?_map, List.getElem?_eq_getElem hn]
    rfl
  have hout := houts n _ hget
  obtain ⟨⟨hsteps', -, hmix⟩, hsample⟩ := htap _ (List.mem_of_getElem? hget)
  have haround_stream : stream (zeros WithNaN hstart) around =
      stream (zeros WithNaN hstart) taps := by
    have h := stream_around (zeros WithNaN hstart) taps
    rwa [DelayLine.len_zeros] at h
  rw [haround_stream, Nat.zero_add, hsteps'] at hout
  rw [hout, Tap.out, hmix, WithNaN.wet_of_isNum hsample, past]
  split
  · next hle =>
    have hk : n - stepsBack len d < taps.length := by omega
    have hold : around[n - stepsBack len d]? = some (Tap.around len taps[n - stepsBack len d]) := by
      rw [haround, List.getElem?_map, List.getElem?_eq_getElem hk]
      rfl
    rw [hhistory _ _ hold, List.getElem?_map, List.getElem?_eq_getElem hk]
    rfl
  · rfl

/-- A list that repeats what came a length ago, from silence on, is silent. -/
theorem silent_of_period {α : Type} [Zero α] {len : ℕ} (hlen : 0 < len) {xs : List α}
    (h : ∀ n < xs.length, (if len ≤ n then xs[n - len]? else some 0) = xs[n]?) :
    ∀ x ∈ xs, x = 0 := by
  have hget : ∀ n, (hn : n < xs.length) → xs[n] = 0 := by
    intro n
    induction n using Nat.strong_induction_on with
    | h n ih =>
      intro hn
      have hx := h n hn
      rw [List.getElem?_eq_getElem hn] at hx
      by_cases hle : len ≤ n
      · have hk : n - len < xs.length := by omega
        rw [if_pos hle, List.getElem?_eq_getElem hk, ih (n - len) (by omega) hk] at hx
        exact (Option.some.inj hx).symm
      · rw [if_neg hle] at hx
        exact (Option.some.inj hx).symm
  intro x hx
  obtain ⟨n, hn, rfl⟩ := List.getElem_of_mem hx
  exact hget n hn

/-- The output is the input `d` samples late, and silence before. -/
def Shifted (d : ℕ) (input output : List WithNaN) : Prop :=
  ∀ n < input.length, ∃ y x, output[n]? = some y ∧
    (if d ≤ n then input[n - d]? else some 0) = some x ∧ y.Same x

variable {d : ℕ} {input output : List WithNaN}

theorem Shifted.getElem? (h : Shifted d input output) {n : ℕ} (hn : n < input.length) :
    output[n]? = if d ≤ n then input[n - d]? else some 0 := by
  obtain ⟨y, x, hy, hx, hsame⟩ := h n hn
  rw [hy, hx, (WithNaN.same_iff.mp hsame).1]

/-- For numbers, equal is the same. -/
theorem shifted_of_getElem? (hnum : ∀ x ∈ input, x.IsNum)
    (h : ∀ n < input.length, output[n]? = if d ≤ n then input[n - d]? else some 0) :
    Shifted d input output := by
  intro n hn
  by_cases hle : d ≤ n
  · have hk : n - d < input.length := lt_of_le_of_lt (Nat.sub_le n d) hn
    have hget : (if d ≤ n then input[n - d]? else some 0) = some input[n - d] := by
      rw [if_pos hle, List.getElem?_eq_getElem hk]
    exact ⟨_, _, (h n hn).trans hget, hget,
      WithNaN.same_iff.mpr ⟨rfl, hnum _ (List.getElem_mem hk)⟩⟩
  · exact ⟨0, 0, (h n hn).trans (if_neg hle), if_neg hle, WithNaN.same_iff.mpr ⟨rfl, isNum_zero⟩⟩

/-- **A wet call** shifts, exactly when there are numbers only, and the offset is not zero or
there is nothing to shift. -/
theorem applyAll_wet_iff {len start : ℕ} (hstart : start < len) (hd : d < len)
    {rs : List (Request WithNaN)}
    (hwet : ∀ r ∈ rs, r.delaySamples = d ∧ r.feedback = 0 ∧ r.mix = 1) :
    ∃ outs line, applyAll rs (List.replicate len 0) start = .ok (outs, line) ∧
      outs.length = (inputs rs).length ∧
      (Shifted d (inputs rs) outs ↔
        (∀ x ∈ inputs rs, x.IsNum) ∧ (1 ≤ d ∨ ∀ x ∈ inputs rs, x = 0)) := by
  have hlen : 0 < len := Nat.zero_lt_of_lt hd
  have htaps : ∀ tap ∈ signal len rs, tap.IsWet d := by
    intro tap htap
    obtain ⟨r, hr, hsteps, hfeedback, hmix⟩ := steps_of_mem_signal htap
    obtain ⟨hdelay, hf, hm⟩ := hwet r hr
    rw [hdelay, Nat.min_eq_left (by omega)] at hsteps
    exact ⟨hsteps, hfeedback.trans hf, hmix.trans hm⟩
  have hsamples : (signal len rs).map Tap.sample = inputs rs := signal_samples len rs
  have hlength : (inputs rs).length = (signal len rs).length := by
    rw [← hsamples, List.length_map]
  refine ⟨_, _, applyAll_replicate hstart rs, by rw [stream_length, hlength], ?_⟩
  by_cases hnum : ∀ x ∈ inputs rs, x.IsNum
  · rw [and_iff_right hnum]
    have htapnum : ∀ tap ∈ signal len rs, tap.sample.IsNum := by
      intro tap htap
      exact hnum _ (hsamples ▸ List.mem_map_of_mem htap)
    have houts : ∀ n < (inputs rs).length,
        (stream (zeros WithNaN hstart) (signal len rs)).1[n]? =
          if stepsBack len d ≤ n then (inputs rs)[n - stepsBack len d]? else some 0 := by
      intro n hn
      rw [stream_wet hstart hd htaps htapnum (hlength ▸ hn), hsamples]
    by_cases hzero : d = 0
    · subst hzero
      have hsteps : stepsBack len 0 = len := if_pos rfl
      rw [hsteps] at houts
      rw [or_iff_right (Nat.not_succ_le_zero 0)]
      constructor
      · intro h
        refine silent_of_period hlen fun n hn => (houts n hn).symm.trans ?_
        rw [h.getElem? hn, if_pos (Nat.zero_le n), Nat.sub_zero]
      · intro hsilent
        refine shifted_of_getElem? hnum fun n hn => ?_
        have hsome : ∀ k, k < (inputs rs).length → (inputs rs)[k]? = some 0 := by
          intro k hk
          rw [List.getElem?_eq_getElem hk, hsilent _ (List.getElem_mem hk)]
        rw [houts n hn, if_pos (Nat.zero_le n), Nat.sub_zero, hsome n hn]
        split
        · exact hsome _ (by omega)
        · rfl
    · have hsteps : stepsBack len d = d := if_neg hzero
      rw [hsteps] at houts
      exact iff_of_true (shifted_of_getElem? hnum houts) (.inl (Nat.pos_of_ne_zero hzero))
  · -- a sample that is no number makes its own output sample none
    refine iff_of_false (fun h => ?_) fun h => hnum h.1
    obtain ⟨x, hx, hnan⟩ := not_forall₂.mp hnum
    obtain rfl : x = nan := not_not.mp hnan
    obtain ⟨n, hn, hget⟩ := List.getElem_of_mem hx
    obtain ⟨y, x, hy, -, hsame⟩ := h n hn
    have hn' : n < (signal len rs).length := hlength ▸ hn
    obtain ⟨z, hz⟩ := stream_out (l := zeros WithNaN hstart) (List.getElem?_eq_getElem hn')
    have hsample : (signal len rs)[n].sample = nan := by
      simp only [← hsamples, List.getElem_map] at hget
      exact hget
    rw [Tap.out, hsample, (htaps _ (List.getElem_mem hn')).2.2, WithNaN.wet_nan] at hz
    obtain rfl := Option.some.inj (hz.symm.trans hy)
    exact (WithNaN.same_iff.mp hsame).2 rfl

-- ════════════════════════════════════════════════════════════════════════
-- The delay control at zero
-- ════════════════════════════════════════════════════════════════════════

section Undelayed

variable {steps n input output : ℕ} {l : DelayLine WithNaN} {m : Memory WithNaN}

/-- A silent sample leaves a silent line silent. -/
theorem sweep_succ_silent (hl : ∀ y ∈ l.buffer, y = 0) (hsilent : m input = 0) :
    sweep steps 0 1 (n + 1) input output l m =
      sweep steps 0 1 n (input + 1) (output + 1) (l.push 0) (Function.update m output 0) := by
  have hago : l.ago steps = 0 := hl _ (l.ago_mem steps)
  have hout : (1 - 1) * (0 : WithNaN) + 1 * 0 = 0 := WithNaN.wet_of_isNum isNum_zero 0
  have hback : Function.update m output 0 input = 0 := by
    rw [update_read_back, hsilent, ite_self]
  have hkept : (0 : WithNaN) + 0 * 0 = 0 := WithNaN.add_zero_mul 0 isNum_zero
  rw [sweep_succ, hago, hsilent, hout, hback, hkept]

/-- From a silent line nothing but silence comes out, so that it is the input only where that
is silent; `x` is the input as it was before any of it was written over. -/
theorem sweep_undelayed {x : ℕ → WithNaN} (hl : ∀ y ∈ l.buffer, y = 0)
    (hm : ∀ k < n, m (input + k) = x k ∨ m (input + k) = 0) :
    ((∀ k < n, ((sweep steps 0 1 n input output l m).2 (output + k)).Same (x k)) ↔
        ∀ k < n, x k = 0) ∧
      ((∀ k < n, x k = 0) → ∀ y ∈ (sweep steps 0 1 n input output l m).1.buffer, y = 0) := by
  induction n generalizing input output l m x with
  | zero => exact ⟨iff_of_true nofun nofun, fun _ => hl⟩
  | succ n ih =>
    have hago : l.ago steps = 0 := hl _ (l.ago_mem steps)
    have hfirst : (sweep steps 0 1 (n + 1) input output l m).2 (output + 0) =
        (1 - 1) * m input + 1 * 0 := by
      rw [Nat.add_zero output, sweep_head, hago]
    have hhere : m input = x 0 ∨ m input = 0 := hm 0 (Nat.succ_pos n)
    by_cases hx : x 0 = 0
    · have hsilent : m input = 0 := hhere.elim (fun h => h.trans hx) id
      have hline : ∀ y ∈ (l.push 0).buffer, y = 0 := by
        intro y hy
        exact (DelayLine.mem_push hy).elim (hl y) id
      have hshift : ∀ i k : ℕ, i + 1 + k = i + (k + 1) := fun i k => by omega
      have hunread : ∀ k < n, Function.update m output 0 (input + 1 + k) = x (k + 1) ∨
          Function.update m output 0 (input + 1 + k) = 0 := by
        intro k hk
        rw [update_read_back, hshift]
        split
        · exact .inr rfl
        · exact hm (k + 1) (Nat.succ_lt_succ hk)
      obtain ⟨hiff, hlast⟩ := @ih (input + 1) (output + 1) _ _ _ hline hunread
      simp only [hshift] at hiff
      have hsame : ((sweep steps 0 1 (n + 1) input output l m).2 (output + 0)).Same (x 0) := by
        rw [hfirst, hsilent, hx, WithNaN.wet_of_isNum isNum_zero]
        exact WithNaN.same_iff.mpr ⟨rfl, isNum_zero⟩
      rw [Nat.forall_lt_succ_left, Nat.forall_lt_succ_left, and_iff_right hsame,
        and_iff_right hx, sweep_succ_silent hl hsilent]
      exact ⟨hiff, hlast⟩
    · have hfalse : ¬ ∀ k < n + 1, x k = 0 := fun h => hx (h 0 (Nat.succ_pos n))
      refine ⟨iff_of_false (fun h => ?_) hfalse, fun h => absurd h hfalse⟩
      -- what comes out is silence, or NaN with the sample
      have hsame := h 0 (Nat.succ_pos n)
      rw [hfirst] at hsame
      obtain ⟨heq, hnum⟩ := WithNaN.same_iff.mp hsame
      have hisNum : (m input).IsNum := by
        intro hnan
        rw [hnan] at hnum
        exact hnum rfl
      rw [WithNaN.wet_of_isNum hisNum] at heq
      exact hx heq.symm

end Undelayed

/-- The output samples of a run are its input samples. -/
def Pass.PassesOn {σ : Type} (p : Pass WithNaN) (r : σ × Memory WithNaN) : Prop :=
  List.Forall₂ WithNaN.Same (r.2.cells p.output p.frames) p.samples

/-- **A run with the delay control at zero** and a silent line passes on silence and nothing
else, and leaves the line silent behind it. -/
theorem Pass.passesOn_iff {Λ : Type} (sink : Sink Λ (DelayLogEvent WithNaN)) {p : Pass WithNaN}
    (hp : p.controls = ⟨0, 0, 1⟩) {delay : Delay WithNaN Λ} (h : delay.WellFormed)
    (hzeros : ∀ y ∈ delay.buffer, y = 0) :
    (p.PassesOn (p.behind sink delay h) ↔ ∀ x ∈ p.samples, x = 0) ∧
      ((∀ x ∈ p.samples, x = 0) → ∀ y ∈ (p.behind sink delay h).1.buffer, y = 0) := by
  have hfeedback : Sample.clamp p.controls.feedback 0 feedbackCap = 0 := by
    rw [hp]
    decide +kernel
  have hmix : Sample.clamp p.controls.mix 0 1 = 1 := by
    rw [hp]
    decide +kernel
  have hsweep := @sweep_undelayed (p.controls.delay delay) p.frames p.input p.output
    (delay.line h) p.cycle.memory (fun k => p.cycle.memory (p.input + k)) hzeros
    fun k _ => .inl rfl
  unfold PassesOn behind swept samples
  rw [hfeedback, hmix, Memory.forall₂_cells, Memory.forall_mem_cells]
  exact hsweep

theorem passesOn_all_iff {Λ : Type} (sink : Sink Λ (DelayLogEvent WithNaN))
    {ps : List (Pass WithNaN)} (hps : ∀ p ∈ ps, p.controls = ⟨0, 0, 1⟩)
    {delay : Delay WithNaN Λ} (h : delay.WellFormed) (hzeros : ∀ y ∈ delay.buffer, y = 0) :
    ∃ rs, (plugin sink).cycles delay (ps.map Pass.cycle) = .ok rs ∧
      (List.Forall₂ Pass.PassesOn ps rs ↔ ∀ p ∈ ps, ∀ x ∈ p.samples, x = 0) := by
  induction ps generalizing delay with
  | nil => exact ⟨[], rfl, iff_of_true .nil nofun⟩
  | cons p ps ih =>
    have hnext := p.behind_wellFormed sink delay h
    obtain ⟨hpasses, hline⟩ := Pass.passesOn_iff sink (hps p List.mem_cons_self) h hzeros
    by_cases hsilent : ∀ x ∈ p.samples, x = 0
    · obtain ⟨rs, hrs, hiff⟩ := ih (fun q hq => hps q (List.mem_cons_of_mem p hq)) hnext
        (hline hsilent)
      refine ⟨_, Entry.Plugin.cycles_cons (p.cycle_eq sink delay h) hrs, ?_⟩
      rw [List.forall₂_cons, List.forall_mem_cons]
      exact and_congr hpasses hiff
    · obtain ⟨rs, hrs⟩ := Pass.cycles_ok sink hnext ps
      refine ⟨_, Entry.Plugin.cycles_cons (p.cycle_eq sink delay h) hrs, iff_of_false ?_ ?_⟩
      · exact fun hall => hsilent (hpasses.mp (List.forall₂_cons.mp hall).1)
      · exact fun hall => hsilent (hall p List.mem_cons_self)

/-- **Fully wet, without feedback**: calls from a silent line shift their input exactly when
all of it is numbers and the offset is not zero or the input is silent, and the plugin with its
delay control at zero passes on nothing but silence, on any buffers. -/
theorem wet_shift_iff {len start d : ℕ} (hstart : start < len) (hd : d < len)
    {rs : List (Request WithNaN)}
    (hrs : ∀ r ∈ rs, r.delaySamples = d ∧ r.feedback = 0 ∧ r.mix = 1)
    {Λ : Type} (sink : Sink Λ (DelayLogEvent WithNaN)) (sampleRate : BitVec 32)
    {ps : List (Pass WithNaN)} (hps : ∀ p ∈ ps, p.controls = ⟨0, 0, 1⟩) :
    (∃ outs line, applyAll rs (List.replicate len 0) start = .ok (outs, line) ∧
        outs.length = (inputs rs).length ∧
        (Shifted d (inputs rs) outs ↔
          (∀ x ∈ inputs rs, x.IsNum) ∧ (1 ≤ d ∨ ∀ x ∈ inputs rs, x = 0))) ∧
      ∃ results, (plugin sink).cycles (instantiate sink sampleRate) (ps.map Pass.cycle) =
          .ok results ∧
        (List.Forall₂ Pass.PassesOn ps results ↔ ∀ p ∈ ps, ∀ x ∈ p.samples, x = 0) :=
  ⟨applyAll_wet_iff hstart hd hrs,
    passesOn_all_iff sink hps (instantiate_wellFormed sink sampleRate)
      fun _ hy => List.eq_of_mem_replicate hy⟩

/-- Two samples, shifted by one. -/
theorem two_samples_shifted :
    ∃ (outs : List WithNaN) (line : List WithNaN × ℕ),
      applyAll [⟨[.num 3, .num 4], [0, 0], 1, 0, 1⟩] (List.replicate 2 0) 0 = .ok (outs, line) ∧
        outs[1]? = some (.num 3) := by
  have hnum : ∀ x ∈ inputs [(⟨[.num 3, .num 4], [0, 0], 1, 0, 1⟩ : Request WithNaN)], x.IsNum :=
    List.forall_mem_cons.mpr ⟨nofun, List.forall_mem_singleton.mpr nofun⟩
  obtain ⟨⟨outs, line, hcalls, hlength, hiff⟩, -⟩ :=
    wet_shift_iff (show 0 < 2 by decide) (show 1 < 2 by decide)
      (show ∀ r ∈ [(⟨[.num 3, .num 4], [0, 0], 1, 0, 1⟩ : Request WithNaN)],
        r.delaySamples = 1 ∧ r.feedback = 0 ∧ r.mix = 1 by decide)
      (⟨fun _ => (), fun _ _ => (true, ())⟩ : Sink Unit (DelayLogEvent WithNaN)) 48000#32
      (show ∀ p ∈ [oneInPlace (WithNaN.num 3) 0 0 1], p.controls = ⟨0, 0, 1⟩ from
        List.forall_mem_singleton.mpr rfl)
  exact ⟨outs, line, hcalls, (hiff.mpr ⟨hnum, .inl le_rfl⟩).getElem? (n := 1) (by decide)⟩

/-- **Failing calls**: without delay, a sample of one is lost behind two slots, and with a delay
of one NaN comes out at once. -/
theorem one_not_passed_on :
    ((applyAll [⟨[1], [0], 0, 0, 1⟩] (List.replicate 2 0) 0 :
          Except _ (List WithNaN × List WithNaN × ℕ)) = .ok ([0], [1, 0], 1) ∧
        ¬ Shifted 0 (inputs [(⟨[1], [0], 0, 0, 1⟩ : Request WithNaN)]) [0]) ∧
      (applyAll [⟨[nan], [0], 1, 0, 1⟩] (List.replicate 2 0) 0 :
          Except _ (List WithNaN × List WithNaN × ℕ)) = .ok ([nan], [nan, 0], 1) ∧
        ¬ Shifted 1 (inputs [(⟨[nan], [0], 1, 0, 1⟩ : Request WithNaN)]) [nan] := by
  refine ⟨⟨by decide +kernel, fun h => ?_⟩, by decide +kernel, fun h => ?_⟩
  · exact absurd (h.getElem? (n := 0) (by decide)) (by decide +kernel)
  · exact absurd (h.getElem? (n := 0) (by decide)) (by decide +kernel)

end Delay
