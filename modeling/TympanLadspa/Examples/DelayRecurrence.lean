import TympanLadspa.Examples.DelaySlices

/-!
# The recurrence of the delay

What `apply_delay` computes over a whole signal, from a silent line. The line holds the last
values of the history `w[n] = x[n] + feedback · w[n - d]`, whatever the parameters do from
call to call, so a read `d` steps back finds `w[n - d]`.
-/

namespace Delay

open Port (Panic Sample)
open DelayLine (past zeros)

section

variable {α : Type} [Sample α]

/-- The values that go into the line. -/
def echo (taps : List (Tap α)) (n : ℕ) : α :=
  match taps[n]? with
  | none => 0
  | some tap =>
    tap.kept (if _ : 1 ≤ tap.steps ∧ tap.steps ≤ n then echo taps (n - tap.steps) else 0)
termination_by n
decreasing_by omega

variable {taps : List (Tap α)} {l : DelayLine α} {n : ℕ}

theorem echo_eq {tap : Tap α} (htap : taps[n]? = some tap) (hsteps : 1 ≤ tap.steps) :
    echo taps n = tap.kept (past (echo taps) n tap.steps) := by
  rw [echo, htap]
  simp only [hsteps, true_and, dite_eq_ite, past]

/-- The write index goes round with the samples. -/
theorem writeIndex_stream (l : DelayLine α) (taps : List (Tap α)) :
    (stream l taps).2.writeIndex = (l.writeIndex + taps.length) % l.len := by
  induction taps generalizing l with
  | nil => exact (Nat.mod_eq_of_lt l.writeIndex_lt).symm
  | cons tap taps ih =>
    rw [stream_cons, ih, DelayLine.len_push, List.length_cons]
    show ((l.writeIndex + 1) % l.len + taps.length) % l.len = _
    rw [Nat.mod_add_mod, Nat.add_assoc, Nat.add_comm 1]

/-- **The stream follows the recurrence.** `rest` is the signal from sample `n` on. -/
theorem stream_echo {rest : List (Tap α)} (hrest : ∀ k, rest[k]? = taps[n + k]?)
    (hholds : l.Holds (echo taps) n) (hsteps : ∀ tap ∈ rest, 1 ≤ tap.steps ∧ tap.steps ≤ l.len) :
    (stream l rest).2.Holds (echo taps) (n + rest.length) ∧
      ∀ (k : ℕ) (tap : Tap α), rest[k]? = some tap →
        (stream l rest).1[k]? = some (tap.out (past (echo taps) (n + k) tap.steps)) := by
  induction rest generalizing l n with
  | nil => exact ⟨hholds, nofun⟩
  | cons tap rest ih =>
    obtain ⟨hpos, hle⟩ := hsteps tap List.mem_cons_self
    have htap : taps[n]? = some tap := (hrest 0).symm
    have hago : l.ago tap.steps = past (echo taps) n tap.steps := hholds tap.steps hpos hle
    -- the value that goes in is the next one of the history
    have hnext : (l.push (tap.kept (l.ago tap.steps))).Holds (echo taps) (n + 1) := by
      rw [hago, ← echo_eq htap hpos]
      exact hholds.push
    have htail : ∀ k, rest[k]? = taps[n + 1 + k]? := by
      intro k
      rw [Nat.add_right_comm]
      exact hrest (k + 1)
    obtain ⟨hlast, houts⟩ := ih htail hnext fun t ht => by
      rw [DelayLine.len_push]
      exact hsteps t (List.mem_cons_of_mem tap ht)
    rw [stream_cons]
    constructor
    · rw [List.length_cons, Nat.add_comm rest.length, ← Nat.add_assoc]
      exact hlast
    · intro k t ht
      cases k with
      | zero =>
        obtain rfl := Option.some.inj ht
        rw [hago]
        rfl
      | succ k =>
        have hk := houts k t ht
        rw [Nat.add_right_comm] at hk
        exact hk

/-- Calls from a silent line. -/
theorem applyAll_replicate {len start : ℕ} (h : start < len) (rs : List (Request α)) :
    applyAll rs (List.replicate len 0) start =
      .ok ((stream (zeros α h) (signal len rs)).1, (stream (zeros α h) (signal len rs)).2.buffer,
        (stream (zeros α h) (signal len rs)).2.writeIndex) := by
  have hcalls := applyAll_eq rs (zeros α h)
  rw [DelayLine.len_zeros] at hcalls
  exact hcalls

omit [Sample α] in
theorem steps_of_mem_signal {len : ℕ} {rs : List (Request α)} {tap : Tap α}
    (h : tap ∈ signal len rs) : ∃ r ∈ rs, tap.steps = min r.delaySamples (len - 1) ∧
      tap.feedback = r.feedback ∧ tap.mix = r.mix := by
  obtain ⟨r, hr, htap⟩ := List.mem_flatMap.mp h
  obtain ⟨x, -, rfl⟩ := List.mem_map.mp htap
  exact ⟨r, hr, rfl, rfl, rfl⟩

/-- **The recurrence**, from a silent line of two slots or more, over any calls whose delay is
not zero. The calls matter only for the signal they make up. -/
theorem applyAll_recurrence {len : ℕ} (hlen : 2 ≤ len) {rs : List (Request α)}
    (hdelay : ∀ r ∈ rs, 1 ≤ min r.delaySamples (len - 1)) :
    ∃ (w : ℕ → α) (outs buffer : List α) (writeIndex : ℕ),
      (∀ n tap, (signal len rs)[n]? = some tap →
        w n = tap.sample + tap.feedback * past w n tap.steps) ∧
      applyAll rs (List.replicate len 0) 0 = .ok (outs, buffer, writeIndex) ∧
      outs.length = (signal len rs).length ∧
      (∀ n tap, (signal len rs)[n]? = some tap →
        outs[n]? = some ((1 - tap.mix) * tap.sample + tap.mix * past w n tap.steps)) ∧
      writeIndex = (signal len rs).length % len ∧
      (∀ j, 1 ≤ j → j ≤ len → buffer[((signal len rs).length + len - j) % len]? =
        some (past w (signal len rs).length j)) ∧
      ∀ rs', signal len rs' = signal len rs →
        applyAll rs' (List.replicate len 0) 0 = .ok (outs, buffer, writeIndex) := by
  have hpos : 0 < len := Nat.zero_lt_of_lt hlen
  have hsteps : ∀ tap ∈ signal len rs,
      1 ≤ tap.steps ∧ tap.steps ≤ (zeros α hpos).len := by
    intro tap htap
    obtain ⟨r, hr, heq, -, -⟩ := steps_of_mem_signal htap
    have hr := hdelay r hr
    rw [heq, DelayLine.len_zeros]
    omega
  have hall : ∀ k, (signal len rs)[k]? = (signal len rs)[0 + k]? := fun k => by
    rw [Nat.zero_add]
  obtain ⟨hholds, houts⟩ := stream_echo hall (DelayLine.zeros_holds hpos _) hsteps
  have hindex := writeIndex_stream (zeros α hpos) (signal len rs)
  rw [DelayLine.len_zeros] at hindex
  have hlast : (stream (zeros α hpos) (signal len rs)).2.writeIndex =
      (signal len rs).length % len := by
    rw [hindex]
    exact congrArg (· % len) (Nat.zero_add _)
  refine ⟨echo (signal len rs), _, _, _, ?recurrence, applyAll_replicate hpos rs,
    stream_length _ _, ?outputs, hlast, ?cells, ?split⟩
  case recurrence =>
    intro n tap htap
    exact echo_eq htap (hsteps tap (List.mem_of_getElem? htap)).1
  case outputs =>
    intro n tap htap
    have h := houts n tap htap
    rw [Nat.zero_add] at h
    exact h
  case cells =>
    intro j hj hle
    have hback : (stream (zeros α hpos) (signal len rs)).2.back j =
        ((signal len rs).length + len - j) % len := by
      unfold DelayLine.back
      rw [hlast, len_stream, DelayLine.len_zeros, Nat.add_sub_assoc hle, Nat.add_sub_assoc hle,
        Nat.mod_add_mod]
    rw [← hback, DelayLine.getElem?_back, hholds j hj (by simpa using hle), Nat.zero_add]
  case split =>
    intro rs' hrs
    rw [applyAll_replicate hpos rs', hrs]

end

/-- An impulse in two calls; the output of the second is too short for its input. -/
def impulse : List (Request ℚ) :=
  [⟨[1, 0, 0], [0, 0, 0], 2, 1 / 2, 1⟩, ⟨[0, 0, 0], [9, 9], 2, 1 / 2, 1⟩]

/-- The impulse comes out of the line after two samples, and the echo of it after four. -/
theorem impulse_recurrence :
    ∃ (w : ℕ → ℚ) (outs buffer : List ℚ) (writeIndex : ℕ),
      applyAll impulse (List.replicate 4 0) 0 = .ok (outs, buffer, writeIndex) ∧
      outs[2]? = some 1 ∧ outs[4]? = some (1 / 2) ∧ writeIndex = 1 ∧
      ∀ n tap, (signal 4 impulse)[n]? = some tap →
        w n = tap.sample + tap.feedback * past w n tap.steps := by
  obtain ⟨w, outs, buffer, writeIndex, hw, hrun, -, -, hindex, -⟩ :=
    applyAll_recurrence (show 2 ≤ 4 by decide)
      (show ∀ r ∈ impulse, 1 ≤ min r.delaySamples (4 - 1) by decide)
  have houts : applyAll impulse (List.replicate 4 0) 0 =
      .ok ([0, 0, 1, 0, 1 / 2], [1 / 4, 0, 1 / 2, 0], 1) := by
    decide +kernel
  obtain ⟨rfl, -⟩ := Prod.mk.inj (Except.ok.inj (houts.symm.trans hrun))
  exact ⟨w, _, buffer, writeIndex, hrun, rfl, rfl, hindex, hw⟩

end Delay
