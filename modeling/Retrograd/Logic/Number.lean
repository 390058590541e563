import Mathlib.Analysis.SpecialFunctions.Log.Basic

/-!
# One program over floats and over exact reals

A numerical program is written once over the operations of `Number`. Its `Float` instance is the
arithmetic a machine runs; its `ℝ` instance is the **exact** arithmetic a formula is about, where
nothing rounds and everything is finite. The lemmas below turn the second back into the ordinary
operations of the reals.
-/

namespace Retrograd.Logic

/-- The operations of a double-precision program. -/
class Number (R : Type) extends Add R, Sub R, Mul R, Div R, Neg R, OfScientific R where
  ofNat : ℕ → R
  le : R → R → Bool
  lt : R → R → Bool
  max : R → R → R
  min : R → R → R
  abs : R → R
  exp : R → R
  ln : R → R
  /-- `exp x - 1`. -/
  expM1 : R → R
  /-- `ln (1 + x)`. -/
  ln1p : R → R
  isFinite : R → Bool
  /-- The value after a narrowing to single precision. -/
  narrow : R → R

/-- Machine doubles. Lean has no `exp_m1` and no `ln_1p` of its own; the plain forms stand for them
and differ in the last places. -/
instance : Number Float where
  ofNat n := (UInt64.ofNat n).toFloat
  le a b := decide (a ≤ b)
  lt a b := decide (a < b)
  max a b := if a ≤ b then b else a
  min a b := if a ≤ b then a else b
  abs := Float.abs
  exp := Float.exp
  ln := Float.log
  expM1 a := Float.exp a - 1
  ln1p a := Float.log (1 + a)
  isFinite := Float.isFinite
  narrow a := a.toFloat32.toFloat

open scoped Classical in
/-- Exact arithmetic. -/
noncomputable instance : Number ℝ where
  ofNat n := n
  le a b := decide (a ≤ b)
  lt a b := decide (a < b)
  max := Max.max
  min := Min.min
  abs a := |a|
  exp := Real.exp
  ln := Real.log
  expM1 a := Real.exp a - 1
  ln1p a := Real.log (1 + a)
  isFinite _ := true
  narrow a := a

namespace Number

variable (a b : ℝ)

@[simp] theorem ofNat_real (n : ℕ) : (ofNat n : ℝ) = n := rfl
@[simp] theorem le_real : le a b = true ↔ a ≤ b := by simp [le]
@[simp] theorem lt_real : lt a b = true ↔ a < b := by simp [lt]
@[simp] theorem max_real : max a b = Max.max a b := rfl
@[simp] theorem min_real : min a b = Min.min a b := rfl
@[simp] theorem abs_real : abs a = |a| := rfl
@[simp] theorem exp_real : exp a = Real.exp a := rfl
@[simp] theorem ln_real : ln a = Real.log a := rfl
@[simp] theorem expM1_real : expM1 a = Real.exp a - 1 := rfl
@[simp] theorem ln1p_real : ln1p a = Real.log (1 + a) := rfl
@[simp] theorem isFinite_real : isFinite a = true := rfl
@[simp] theorem narrow_real : narrow a = a := rfl
@[simp] theorem add_real : @HAdd.hAdd ℝ ℝ ℝ (@instHAdd ℝ toAdd) a b = a + b := rfl
@[simp] theorem sub_real : @HSub.hSub ℝ ℝ ℝ (@instHSub ℝ toSub) a b = a - b := rfl
@[simp] theorem mul_real : @HMul.hMul ℝ ℝ ℝ (@instHMul ℝ toMul) a b = a * b := rfl
@[simp] theorem div_real : @HDiv.hDiv ℝ ℝ ℝ (@instHDiv ℝ toDiv) a b = a / b := rfl
@[simp] theorem neg_real : @Neg.neg ℝ toNeg a = -a := rfl
@[simp] theorem scientific_real (mantissa : ℕ) (sign : Bool) (exponent : ℕ) :
    @OfScientific.ofScientific ℝ toOfScientific mantissa sign exponent =
      OfScientific.ofScientific mantissa sign exponent := rfl

end Number
end Retrograd.Logic
