import RingLayout.Proofs.Extents

/-! # Exact arithmetic with infinities

The real numbers with two infinities and an undefined number, which arithmetic treats as the
standard for floating point does, but for rounding: what is divided by zero is infinite, or
undefined if it is zero itself. Zero has no sign; it counts as positive.
-/

namespace RingLayout

/-- A real number, infinity, negative or not, or nothing that is a number. -/
inductive Extended where
  | finite (x : ℝ)
  | infinite (negative : Bool)
  | undefined

namespace Extended

noncomputable def neg : Extended → Extended
  | finite x => finite (-x)
  | infinite s => infinite !s
  | undefined => undefined

noncomputable def add : Extended → Extended → Extended
  | finite x, finite y => finite (x + y)
  | finite _, infinite s => infinite s
  | infinite s, finite _ => infinite s
  | infinite s, infinite t => if s = t then infinite s else undefined
  | _, _ => undefined

noncomputable def mul : Extended → Extended → Extended
  | finite x, finite y => finite (x * y)
  | finite x, infinite s => if x = 0 then undefined else infinite (s ^^ decide (x < 0))
  | infinite s, finite y => if y = 0 then undefined else infinite (s ^^ decide (y < 0))
  | infinite s, infinite t => infinite (s ^^ t)
  | _, _ => undefined

noncomputable def div : Extended → Extended → Extended
  | finite x, finite y =>
    if y = 0 then if x = 0 then undefined else infinite (decide (x < 0)) else finite (x / y)
  | finite _, infinite _ => finite 0
  | infinite s, finite y => infinite (s ^^ decide (y < 0))
  | _, _ => undefined

def lt : Extended → Extended → Prop
  | finite x, finite y => x < y
  | finite _, infinite s => s = false
  | infinite s, finite _ => s = true
  | infinite s, infinite t => s = true ∧ t = false
  | _, _ => False

def le : Extended → Extended → Prop
  | finite x, finite y => x ≤ y
  | finite _, infinite s => s = false
  | infinite s, finite _ => s = true
  | infinite s, infinite t => s = true ∨ t = false
  | _, _ => False

noncomputable def beq : Extended → Extended → Bool
  | finite x, finite y => decide (x = y)
  | infinite s, infinite t => s == t
  | _, _ => false

def abs : Extended → Extended
  | finite x => finite |x|
  | infinite _ => infinite false
  | undefined => undefined

noncomputable def sqrt : Extended → Extended
  | finite x => if x < 0 then undefined else finite √x
  | infinite s => if s then undefined else infinite false
  | undefined => undefined

def isFinite : Extended → Bool
  | finite _ => true
  | _ => false

/-- A function of finite numbers, elsewhere undefined. -/
def lift (f : ℝ → ℝ) : Extended → Extended
  | finite x => finite (f x)
  | _ => undefined

/-- A function of two finite numbers, elsewhere undefined. -/
def lift₂ (f : ℝ → ℝ → ℝ) : Extended → Extended → Extended
  | finite x, finite y => finite (f x y)
  | _, _ => undefined

/-- A rounded finite number, and 0 for any other. -/
def rounded {α : Type} (zero : α) (f : ℝ → α) : Extended → α
  | finite x => f x
  | _ => zero

end Extended

open Extended in
/-- The functions of analysis other than the square root are those of finite numbers. -/
noncomputable instance instScalarExtended : Scalar Extended where
  add := add
  sub x y := add x (neg y)
  mul := mul
  div := div
  neg := neg
  lt := lt
  le := le
  beq := beq
  natCast n := finite n
  ofScientific m s e := finite (OfScientific.ofScientific m s e)
  decidableLT _ _ := Classical.propDecidable _
  decidableLE _ _ := Classical.propDecidable _
  isFinite := isFinite
  abs := abs
  sqrt := sqrt
  cos := lift Real.cos
  sin := lift Real.sin
  atan2 := lift₂ Scalar.atan2
  ln := lift Real.log
  pow := lift₂ Scalar.pow
  turn := finite Scalar.turn
  emod := lift₂ Scalar.emod
  floorNat := rounded 0 Nat.floor
  ceilNat := rounded 0 Nat.ceil
  floorInt := rounded 0 Int.floor
  sortLe x y := open Classical in decide (le x y ∨ y = undefined)

namespace Extended

variable {x y : ℝ}

@[simp] theorem finite_add (x y : ℝ) : finite x + finite y = finite (x + y) := rfl

@[simp] theorem finite_sub (x y : ℝ) : finite x - finite y = finite (x - y) :=
  congrArg finite (sub_eq_add_neg x y).symm

@[simp] theorem finite_mul (x y : ℝ) : finite x * finite y = finite (x * y) := rfl

theorem finite_div (x : ℝ) (hy : y ≠ 0) : finite x / finite y = finite (x / y) := if_neg hy

/-- Whatever is not zero is infinite when divided by zero. -/
theorem finite_div_zero (hx : x ≠ 0) : finite x / finite 0 = infinite (decide (x < 0)) :=
  (if_pos rfl).trans (if_neg hx)

@[simp] theorem finite_lt : finite x < finite y ↔ x < y := Iff.rfl

@[simp] theorem finite_le : finite x ≤ finite y ↔ x ≤ y := Iff.rfl

@[simp] theorem finite_beq (x y : ℝ) : (finite x == finite y) = (x == y) := rfl

@[simp] theorem abs_finite (x : ℝ) : Scalar.abs (finite x) = finite |x| := rfl

@[simp] theorem isFinite_finite (x : ℝ) : Scalar.isFinite (finite x) = true := rfl

@[simp] theorem minNum_finite (x y : ℝ) :
    Scalar.minNum (finite x) (finite y) = finite (Scalar.minNum x y) := by
  simp only [Scalar.minNum, finite_lt, finite_le]
  split_ifs <;> rfl

@[simp] theorem maxNum_finite (x y : ℝ) :
    Scalar.maxNum (finite x) (finite y) = finite (Scalar.maxNum x y) := by
  simp only [Scalar.maxNum, finite_lt, finite_le]
  split_ifs <;> rfl

end Extended

/-! ## Points and boxes -/

/-- A point with finite coordinates. -/
def Point.extended (p : Point ℝ) : Point Extended := ⟨.finite p.x, .finite p.y⟩

namespace Box

open Extended (finite)

/-- A box with finite coordinates and sides. -/
def extended (b : Box ℝ) : Box Extended :=
  ⟨finite b.left, finite b.top, finite b.width, finite b.height⟩

variable (a b : Box ℝ)

@[simp] theorem left_extended : b.extended.left = finite b.left := rfl

@[simp] theorem top_extended : b.extended.top = finite b.top := rfl

@[simp] theorem right_extended : b.extended.right = finite b.right := rfl

@[simp] theorem bottom_extended : b.extended.bottom = finite b.bottom := rfl

theorem half_finite (x : ℝ) : finite x / 2.0 = finite (x / 2.0) :=
  Extended.finite_div x (by norm_num)

@[simp] theorem centerX_extended : b.extended.centerX = finite b.centerX :=
  congrArg (finite b.left + ·) (half_finite b.width)

@[simp] theorem centerY_extended : b.extended.centerY = finite b.centerY :=
  congrArg (finite b.top + ·) (half_finite b.height)

@[simp] theorem intersects_extended : a.extended.intersects b.extended = a.intersects b := by
  rw [Bool.eq_iff_iff]
  simp only [intersects, Bool.and_eq_true, decide_eq_true_iff, left_extended, top_extended,
    right_extended, bottom_extended, Extended.finite_lt]

end Box

end RingLayout
