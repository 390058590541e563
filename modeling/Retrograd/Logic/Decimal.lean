import Mathlib.Tactic.FieldSimp
import Mathlib.Tactic.Ring

/-!
# Decimal numbers

The value of a decimal number, as a rational, and the double **nearest** to it, ties to even. A
number is digits and a power of ten: moving the point within the digits and changing the power
leave its value alone.
-/

namespace Retrograd.Logic

/-- The value of decimal digits. -/
def digitsValue (digits : List Char) : ℕ := Nat.ofDigitChars 10 digits 0

/-- The value of decimal digits times a power of ten. -/
def decimalValue (digits : List Char) (exponent : ℤ) : ℚ := digitsValue digits * (10 : ℚ) ^ exponent

open Float.Model in
/-- The double nearest to a magnitude, ties to even. -/
def nearestDouble (negative : Bool) (magnitude : ℚ) : Float :=
  let sign : UnpackedFloat.Sign := if negative then .negative else .positive
  if h : 0 < magnitude.num.toNat then
    .ofModel (.pack (UnpackedFloat.div .binary64 (.finite sign magnitude.num.toNat 0 h)
      (.finite .positive magnitude.den 0 magnitude.den_pos)))
  else .ofModel (.pack (.zero sign))

theorem digitsValue_append_zeros (digits : List Char) (n : ℕ) :
    digitsValue (digits ++ List.replicate n '0') = 10 ^ n * digitsValue digits := by
  rw [digitsValue, Nat.ofDigitChars_append, Nat.ofDigitChars_replicate_zero]
  rfl

theorem digitsValue_zeros_append (digits : List Char) (n : ℕ) :
    digitsValue (List.replicate n '0' ++ digits) = digitsValue digits := by
  rw [digitsValue, Nat.ofDigitChars_append, Nat.ofDigitChars_replicate_zero, Nat.mul_zero]
  rfl

/-- A zero behind the digits takes one off the power. -/
theorem decimalValue_append_zeros (digits : List Char) (n : ℕ) (exponent : ℤ) :
    decimalValue (digits ++ List.replicate n '0') exponent = decimalValue digits (exponent + n) := by
  rw [decimalValue, decimalValue, digitsValue_append_zeros, zpow_add₀ (by decide), zpow_natCast]
  push_cast
  ring

theorem decimalValue_zeros_append (digits : List Char) (n : ℕ) (exponent : ℤ) :
    decimalValue (List.replicate n '0' ++ digits) exponent = decimalValue digits exponent := by
  rw [decimalValue, decimalValue, digitsValue_zeros_append]

end Retrograd.Logic
