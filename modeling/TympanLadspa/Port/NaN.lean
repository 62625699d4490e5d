import TympanLadspa.Port.Sample

/-!
# Numbers with a NaN

The rationals and one value that is no number: arithmetic with it gives it back, every
comparison with it fails, `clamp` keeps it, `max` takes the other argument, and `as usize`
makes it zero.
-/

namespace Port

inductive WithNaN
  | nan
  | num (q : ℚ)
deriving Repr, DecidableEq

namespace WithNaN

/-- An operation on numbers; NaN is absorbing. -/
def lift₂ (f : ℚ → ℚ → ℚ) : WithNaN → WithNaN → WithNaN
  | num x, num y => num (f x y)
  | _, _ => nan

instance : Zero WithNaN := ⟨num 0⟩
instance : One WithNaN := ⟨num 1⟩
instance : Add WithNaN := ⟨lift₂ (· + ·)⟩
instance : Sub WithNaN := ⟨lift₂ (· - ·)⟩
instance : Mul WithNaN := ⟨lift₂ (· * ·)⟩
instance : Div WithNaN := ⟨lift₂ (· / ·)⟩

/-- `x < y`. -/
def lt : WithNaN → WithNaN → Bool
  | num x, num y => decide (x < y)
  | _, _ => false

/-- `f32::max`. -/
def max : WithNaN → WithNaN → WithNaN
  | nan, y => y
  | x, nan => x
  | num x, num y => num (Sample.max x y)

/-- `f32::clamp`. -/
def clamp (x lo hi : WithNaN) : WithNaN := if x.lt lo then lo else if hi.lt x then hi else x

instance : Sample WithNaN where
  ofRat := num
  gt x y := y.lt x
  max := max
  clamp := clamp
  ceil
    | nan => nan
    | num q => num (Sample.ceil q)
  asUsize
    | nan => 0
    | num q => Sample.asUsize q

/-- An ordinary number. -/
def IsNum (x : WithNaN) : Prop := x ≠ nan

/-- `==` of `f32`: NaN is equal to nothing. -/
def Same : WithNaN → WithNaN → Prop
  | num x, num y => x = y
  | _, _ => False

variable {x y lo hi : WithNaN}

theorem isNum_lift₂ {f : ℚ → ℚ → ℚ} (hx : x.IsNum) (hy : y.IsNum) : (lift₂ f x y).IsNum := by
  cases x with
  | nan => exact absurd rfl hx
  | num p =>
    cases y with
    | nan => exact absurd rfl hy
    | num q => exact nofun

theorem isNum_add (hx : x.IsNum) (hy : y.IsNum) : (x + y).IsNum := isNum_lift₂ hx hy
theorem isNum_sub (hx : x.IsNum) (hy : y.IsNum) : (x - y).IsNum := isNum_lift₂ hx hy
theorem isNum_mul (hx : x.IsNum) (hy : y.IsNum) : (x * y).IsNum := isNum_lift₂ hx hy

theorem isNum_zero : (0 : WithNaN).IsNum := nofun
theorem isNum_one : (1 : WithNaN).IsNum := nofun

@[simp] theorem nan_mul (y : WithNaN) : nan * y = nan := rfl

@[simp] theorem nan_add (y : WithNaN) : nan + y = nan := rfl

@[simp] theorem add_nan (x : WithNaN) : x + nan = nan := by
  cases x <;> rfl

theorem same_iff : x.Same y ↔ x = y ∧ x.IsNum := by
  cases x with
  | nan => exact iff_of_false id fun h => h.2 rfl
  | num p =>
    cases y with
    | nan => exact iff_of_false id fun h => nomatch h.1
    | num q => exact ⟨fun h => ⟨congrArg num h, nofun⟩, fun h => num.inj h.1⟩

/-- One times a value beside nothing of a number. -/
theorem wet_of_isNum (hx : x.IsNum) (y : WithNaN) : (1 - 1) * x + 1 * y = y := by
  cases x with
  | nan => exact absurd rfl hx
  | num p =>
    cases y with
    | nan => rfl
    | num q =>
      show num ((1 - 1) * p + 1 * q) = num q
      congr 1
      ring

/-- Nothing of NaN is NaN. -/
theorem wet_nan (y : WithNaN) : (1 - 1) * nan + 1 * y = nan := rfl

theorem add_zero_mul (x : WithNaN) (hy : y.IsNum) : x + 0 * y = x := by
  cases y with
  | nan => exact absurd rfl hy
  | num q =>
    cases x with
    | nan => rfl
    | num p =>
      show num (p + 0 * q) = num p
      congr 1
      ring

/-- A number comes out of `clamp` as one. -/
theorem isNum_clamp (hx : x.IsNum) (hlo : lo.IsNum) (hhi : hi.IsNum) :
    (Sample.clamp x lo hi).IsNum := by
  show (if x.lt lo then lo else if hi.lt x then hi else x).IsNum
  split
  · exact hlo
  · split
    · exact hhi
    · exact hx

/-- NaN does not become a number in `clamp`. -/
theorem clamp_nan (lo hi : WithNaN) : Sample.clamp nan lo hi = nan := by
  show (if lt nan lo then lo else if hi.lt nan then hi else nan) = nan
  cases hi <;> rfl

end WithNaN

end Port
