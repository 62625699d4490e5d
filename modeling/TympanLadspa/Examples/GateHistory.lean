import TympanLadspa.Examples.GateSlices
import TympanLadspa.Port.NaN

/-!
# The gate and its history

The code keeps one bit from sample to sample. What that bit says is a rule about all samples
so far: the last one that was loud or quiet enough to decide was loud. From the rule follow
the hold inside the band, and that lower thresholds let through at least as much.
-/

/-- `Data` with `<=`, and what comparisons promise; NaN is compared in vain. -/
class Port.OrderedSample (α : Type) extends Port.AbsSample α where
  le : α → α → Bool
  not_gt_of_le : ∀ {x y : α}, le x y = true → gt x y = false
  gt_of_gt_of_le : ∀ {x y z : α}, gt x y = true → le z y = true → gt x z = true
  gt_of_le_of_gt : ∀ {x y z : α}, le y x = true → gt y z = true → gt x z = true

namespace Port

instance : OrderedSample ℚ where
  le x y := decide (x ≤ y)
  not_gt_of_le h := decide_eq_false (not_lt.mpr (of_decide_eq_true h))
  gt_of_gt_of_le hxy hzy :=
    decide_eq_true (lt_of_le_of_lt (of_decide_eq_true hzy) (of_decide_eq_true hxy))
  gt_of_le_of_gt hyx hyz :=
    decide_eq_true (lt_of_lt_of_le (of_decide_eq_true hyz) (of_decide_eq_true hyx))

namespace WithNaN

instance : AbsSample WithNaN where
  abs
    | nan => nan
    | num q => num |q|

/-- `x <= y`. -/
def le : WithNaN → WithNaN → Bool
  | num x, num y => decide (x ≤ y)
  | _, _ => false

theorem le_eq_true {x y : WithNaN} :
    x.le y = true ↔ ∃ p q, x = num p ∧ y = num q ∧ p ≤ q := by
  cases x <;> cases y <;> simp [le]

theorem gt_eq_true {x y : WithNaN} :
    Sample.gt x y = true ↔ ∃ p q, x = num p ∧ y = num q ∧ q < p := by
  show y.lt x = true ↔ _
  cases x <;> cases y <;> simp [lt]

instance : OrderedSample WithNaN where
  le := le
  not_gt_of_le {x y} h := by
    obtain ⟨p, q, rfl, rfl, hle⟩ := le_eq_true.mp h
    exact decide_eq_false (not_lt.mpr hle)
  gt_of_gt_of_le {x y z} hxy hzy := by
    obtain ⟨p, q, rfl, rfl, hlt⟩ := gt_eq_true.mp hxy
    obtain ⟨r, q', rfl, heq, hle⟩ := le_eq_true.mp hzy
    cases heq
    exact decide_eq_true (lt_of_le_of_lt hle hlt)
  gt_of_le_of_gt {x y z} hyx hyz := by
    obtain ⟨q, p, rfl, rfl, hle⟩ := le_eq_true.mp hyx
    obtain ⟨q', r, heq, rfl, hlt⟩ := gt_eq_true.mp hyz
    cases heq
    exact decide_eq_true (lt_of_lt_of_le hlt hle)

end WithNaN

end Port

namespace NoiseGate

open Port (AbsSample OrderedSample Sample WithNaN)

variable {α : Type}

section

variable [AbsSample α]

/-- The latch behind samples that are processed in one call. -/
def latchAfter (openThreshold closeThreshold : α) (start : Bool) (xs : List α) : Bool :=
  (zipSamples openThreshold closeThreshold xs xs start).2

theorem latchAfter_eq (openThreshold closeThreshold : α) (start : Bool) (xs : List α) :
    latchAfter openThreshold closeThreshold start xs =
      (hysteresis openThreshold closeThreshold).after start xs := by
  rw [latchAfter, zipSamples_eq, List.take_length]

end

variable [OrderedSample α]

/-- `close_threshold <= |x| <= open_threshold`. -/
def InBand (openThreshold closeThreshold x : α) : Prop :=
  OrderedSample.le closeThreshold (AbsSample.abs x) = true ∧
    OrderedSample.le (AbsSample.abs x) openThreshold = true

variable {openThreshold closeThreshold : α}

theorem InBand.not_decisive {x : α} (h : InBand openThreshold closeThreshold x) :
    ¬ (hysteresis openThreshold closeThreshold).Decisive x := by
  rintro (hloud | hquiet)
  · exact Bool.false_ne_true ((OrderedSample.not_gt_of_le h.2).symm.trans hloud)
  · exact Bool.false_ne_true ((OrderedSample.not_gt_of_le h.1).symm.trans hquiet)

/-- **The gate follows its history**: behind each sample it is open exactly when the last
decisive one was above `openThreshold`, or there was none and it was open at the start. A
stretch inside the band leaves it as it was, whatever calls the samples come in. -/
theorem follows_history (openThreshold closeThreshold : α) (start : Bool)
    (ss : List (Slices α)) :
    ∃ outs final, applyAll openThreshold closeThreshold ss start = (outs, final) ∧
      outs.length = (signal ss).length ∧
      (∀ n x, (signal ss)[n]? = some x →
        ((hysteresis openThreshold closeThreshold).SetLast start ((signal ss).take (n + 1)) →
          outs[n]? = some x) ∧
        (¬ (hysteresis openThreshold closeThreshold).SetLast start ((signal ss).take (n + 1)) →
          outs[n]? = some 0)) ∧
      (final = true ↔
        (hysteresis openThreshold closeThreshold).SetLast start (signal ss)) ∧
      ∀ ss' stretch, signal ss' = signal ss ++ stretch →
        (∀ x ∈ stretch, InBand openThreshold closeThreshold x) →
        (applyAll openThreshold closeThreshold ss' start).2 = final := by
  refine ⟨_, _, applyAll_eq ss, gated_length _, ?_, Latch.after_eq_true_iff, ?_⟩
  · intro n x hx
    rw [getElem?_gated, hx, Option.map_some, ← Latch.after_eq_true_iff]
    constructor
    · intro hopen
      rw [if_pos hopen]
    · intro hclosed
      rw [if_neg hclosed]
  · intro ss' stretch hsignal hband
    rw [applyAll_eq, hsignal, Latch.after_append]
    exact Latch.after_of_idle fun x hx => (hband x hx).not_decisive

/-- Lower thresholds make a latch above. -/
theorem hysteresis_above {open₁ open₂ close₁ close₂ : α}
    (hopen : OrderedSample.le open₁ open₂ = true)
    (hclose : OrderedSample.le close₁ close₂ = true) :
    (hysteresis open₁ close₁).Above (hysteresis open₂ close₂) where
  sets _ hloud := OrderedSample.gt_of_gt_of_le hloud hopen
  resets _ hquiet := OrderedSample.gt_of_le_of_gt hclose hquiet

/-- **Lower thresholds never mute**: with both thresholds lower and a start that is open when
the other one is, the gate is open behind every sample behind which the other one is, wherever
their calls begin. -/
theorem lower_thresholds_pass {open₁ open₂ close₁ close₂ : α}
    (hopen : OrderedSample.le open₁ open₂ = true)
    (hclose : OrderedSample.le close₁ close₂ = true) {start₁ start₂ : Bool}
    (hstart : start₂ = true → start₁ = true) {ss₁ ss₂ : List (Slices α)}
    (hsignal : signal ss₁ = signal ss₂) :
    ∃ outs₁ final₁ outs₂ final₂, applyAll open₁ close₁ ss₁ start₁ = (outs₁, final₁) ∧
      applyAll open₂ close₂ ss₂ start₂ = (outs₂, final₂) ∧
      (∀ n, latchAfter open₂ close₂ start₂ ((signal ss₂).take n) = true →
        latchAfter open₁ close₁ start₁ ((signal ss₁).take n) = true) ∧
      (final₂ = true → final₁ = true) ∧
      ∀ n x, (signal ss₁)[n]? = some x →
        latchAfter open₂ close₂ start₂ ((signal ss₂).take (n + 1)) = true →
        outs₂[n]? = some x ∧ outs₁[n]? = some x := by
  have habove := hysteresis_above hopen hclose
  refine ⟨_, _, _, _, applyAll_eq ss₁, applyAll_eq ss₂, ?_, ?_, ?_⟩
  · intro n hopen₂
    rw [latchAfter_eq] at hopen₂ ⊢
    rw [hsignal]
    exact habove.after hstart hopen₂
  · rw [hsignal]
    exact habove.after hstart
  · intro n x hx hopen₂
    rw [latchAfter_eq] at hopen₂
    rw [hsignal] at hx
    rw [hsignal, getElem?_gated, getElem?_gated, hx, Option.map_some, Option.map_some,
      if_pos hopen₂, if_pos (habove.after hstart hopen₂)]
    exact ⟨rfl, rfl⟩

/-- A signal with NaN in it, in one call. -/
def oneCall : List (Slices WithNaN) := [⟨[.num (3 / 10), .nan, .num (6 / 10)], [0, 0, 0]⟩]

def twoCalls : List (Slices WithNaN) :=
  [⟨[.num (3 / 10)], [0]⟩, ⟨[.nan, .num (6 / 10)], [0, 0]⟩]

theorem lower_thresholds_pass_nan :
    ∃ outs₁ final₁ outs₂ final₂,
      applyAll (WithNaN.num (1 / 4)) (.num (1 / 10)) oneCall true = (outs₁, final₁) ∧
      applyAll (WithNaN.num (1 / 2)) (.num (1 / 5)) twoCalls false = (outs₂, final₂) ∧
      (final₂ = true → final₁ = true) := by
  have hopen : WithNaN.le (.num (1 / 4)) (.num (1 / 2)) = true := decide_eq_true (by norm_num)
  have hclose : WithNaN.le (.num (1 / 10)) (.num (1 / 5)) = true := decide_eq_true (by norm_num)
  have hstart : false = true → true = true := nofun
  have hsignal : signal oneCall = signal twoCalls := rfl
  obtain ⟨outs₁, final₁, outs₂, final₂, h₁, h₂, -, hfinal, -⟩ :=
    lower_thresholds_pass hopen hclose hstart hsignal
  exact ⟨outs₁, final₁, outs₂, final₂, h₁, h₂, hfinal⟩

end NoiseGate
