import Retrograd.Logic.Nearest
import Mathlib.Data.Nat.Bitwise
import Mathlib.Tactic.NormNum

/-!
# Narrow feature storage

A feature is stored in sixteen bits, as a binary16 or as a bfloat16 number, and read back. Both
conversions cut the significand and carry by the remainder, so what they store is the **nearest**
number of the format, ties to even, and what is read back is exact; the first flushes to zero what
lies under the smallest subnormal and the second carries past the largest finite number.

A single-precision number is its bits. A number is compared by its magnitude, the bits without the
sign, since the values of positive numbers are ordered as their bits are.
-/

namespace Retrograd.Training.Features

open Logic

/-! ### Single precision -/

/-- `f32::abs`, of the bits. -/
def magnitude (bits : UInt32) : UInt32 := bits &&& 0x7fffffff

/-- `f32::is_nan`, of the bits. -/
def isNan (bits : UInt32) : Bool := 0x7f800000 < magnitude bits

/-- The bits of `65504.0`, the largest finite binary16 number. -/
def f16Max : UInt32 := 0x477fe000

/-- Shifts a value right with rounding to nearest even. -/
def roundShift (value shift : UInt32) : UInt32 :=
  let truncated := value >>> shift
  let remainder := value &&& ((1 <<< shift) - 1)
  let halfway : UInt32 := 1 <<< (shift - 1)
  if halfway < remainder ∨ (remainder = halfway ∧ truncated &&& 1 = 1) then truncated + 1
  else truncated

/-- A single-precision number as binary16. -/
def f32ToF16 (bits : UInt32) : UInt16 :=
  let sign : UInt16 := ((bits >>> 16) &&& 0x8000).toUInt16
  if isNan bits then sign ||| 0x7e00
  else if f16Max ≤ magnitude bits then sign ||| 0x7bff
  else
    let exponent : ℤ := ((bits >>> 23) &&& 0xff).toNat - 127
    if exponent < -24 then sign
    else
      let mantissa := bits &&& 0x007fffff
      if exponent < -14 then
        -- a subnormal: the implicit leading one comes back explicitly
        let significand := mantissa ||| 0x00800000
        let shift := UInt32.ofNat (-14 - exponent).toNat + 13
        sign ||| (roundShift significand shift).toUInt16
      else
        -- rounding may carry into the exponent
        let exponentBits := UInt32.ofNat (exponent + 15).toNat <<< 10
        (sign.toUInt32 ||| (exponentBits + roundShift mantissa 13)).toUInt16

/-- The bits of `n as f32 * 5.960_464_5e-8` for `0 < n < 1024`: the literal is `2 ^ -24`, and both
factors and the product are exact. -/
def timesSmallest (n : UInt32) : UInt32 :=
  UInt32.ofNat ((103 + n.toNat.log2) * 2 ^ 23 + (n.toNat * 2 ^ (23 - n.toNat.log2) - 2 ^ 23))

/-- A binary16 number in single precision. -/
def f16ToF32 (bits : UInt16) : UInt32 :=
  let sign := (bits.toUInt32 &&& 0x8000) <<< 16
  let exponent := ((bits >>> 10) &&& 0x1f).toUInt32
  let mantissa := (bits.toUInt32 &&& 0x03ff) <<< 13
  if exponent = 0 then
    if mantissa = 0 then sign
    -- a zero of some sign plus a number of that sign
    else sign ||| timesSmallest (bits &&& 0x03ff).toUInt32
  else if exponent = 0x1f then sign ||| 0x7f800000 ||| mantissa
  else sign ||| ((exponent + 112) <<< 23) ||| mantissa

/-- A single-precision number as bfloat16: the top sixteen bits, rounded to nearest even. -/
def f32ToBf16 (bits : UInt32) : UInt16 :=
  if isNan bits then (bits >>> 16).toUInt16 ||| 0x0040
  else ((bits + (0x7fff : UInt32) + ((bits >>> 16) &&& 1)) >>> 16).toUInt16

def bf16ToF32 (bits : UInt16) : UInt32 := bits.toUInt32 <<< 16

/-! ### The conversions in numbers -/

private theorem toNat_and_mask (bits : UInt32) {mask : UInt32} {n : ℕ} (h : mask.toNat = 2 ^ n - 1) :
    (bits &&& mask).toNat = bits.toNat % 2 ^ n := by
  rw [UInt32.toNat_and, h, Nat.and_two_pow_sub_one_eq_mod]

private theorem toNat_shiftRight (bits : UInt32) {shift : UInt32} (h : shift.toNat < 32) :
    (bits >>> shift).toNat = bits.toNat / 2 ^ shift.toNat := by
  rw [UInt32.toNat_shiftRight, Nat.mod_eq_of_lt h, Nat.shiftRight_eq_div_pow]

private theorem toNat_one_shiftLeft {shift : UInt32} (h : shift.toNat < 32) :
    ((1 : UInt32) <<< shift).toNat = 2 ^ shift.toNat := by
  have hlt : 2 ^ shift.toNat < 2 ^ 32 := Nat.pow_lt_pow_right (by decide) h
  rw [UInt32.toNat_shiftLeft, Nat.mod_eq_of_lt h, UInt32.toNat_one, Nat.shiftLeft_eq, Nat.one_mul,
    Nat.mod_eq_of_lt hlt]

theorem toNat_magnitude (bits : UInt32) : (magnitude bits).toNat = bits.toNat % 2 ^ 31 :=
  toNat_and_mask bits rfl

theorem isNan_iff (bits : UInt32) : isNan bits ↔ 0x7f800000 < bits.toNat % 2 ^ 31 := by
  rw [isNan, decide_eq_true_eq, UInt32.lt_iff_toNat_lt, toNat_magnitude]
  rfl

/-- A number cut at a bit and carried by what is cut off. -/
def carried (value shift : ℕ) : ℕ :=
  if 2 ^ (shift - 1) < value % 2 ^ shift ∨
      value % 2 ^ shift = 2 ^ (shift - 1) ∧ value / 2 ^ shift % 2 = 1 then
    value / 2 ^ shift + 1
  else value / 2 ^ shift

theorem toNat_roundShift (value : UInt32) {shift : UInt32} (hpos : 0 < shift.toNat)
    (hlt : shift.toNat < 32) :
    (roundShift value shift).toNat = carried value.toNat shift.toNat := by
  have hone : (shift - 1).toNat = shift.toNat - 1 := by
    have hle : (1 : UInt32) ≤ shift := UInt32.le_iff_toNat_le.mpr hpos
    rw [UInt32.toNat_sub_of_le _ _ hle]
    rfl
  have hhalf : ((1 : UInt32) <<< (shift - 1)).toNat = 2 ^ (shift.toNat - 1) := by
    rw [toNat_one_shiftLeft (by rw [hone]; omega), hone]
  have hmask : ((1 : UInt32) <<< shift - 1).toNat = 2 ^ shift.toNat - 1 := by
    rw [UInt32.toNat_sub_of_le _ _ (UInt32.le_iff_toNat_le.mpr _), toNat_one_shiftLeft hlt]
    · rfl
    · rw [toNat_one_shiftLeft hlt]
      exact Nat.one_le_two_pow
  have hremainder := toNat_and_mask value hmask
  have htruncated := toNat_shiftRight value hlt
  have hodd : (value >>> shift &&& 1).toNat = value.toNat / 2 ^ shift.toNat % 2 := by
    rw [← htruncated]
    exact toNat_and_mask _ (n := 1) rfl
  have hshrunk : value.toNat / 2 ^ shift.toNat + 1 < 2 ^ 32 := by
    have hle : value.toNat / 2 ^ shift.toNat ≤ value.toNat / 2 ^ 1 :=
      Nat.div_le_div_left (Nat.pow_le_pow_right (by decide) hpos) (by decide)
    have := value.toNat_lt
    omega
  rw [roundShift, carried]
  simp only [UInt32.lt_iff_toNat_lt, ← UInt32.toNat_inj, hremainder, hhalf, hodd, UInt32.toNat_one]
  split_ifs
  · rw [UInt32.toNat_add, htruncated, UInt32.toNat_one, Nat.mod_eq_of_lt hshrunk]
  · exact htruncated

/-- The magnitude a single-precision magnitude is stored at in binary16. -/
def stored16 (m : ℕ) : ℕ :=
  if 0x7f800000 < m then 0x7e00
  else if 0x477fe000 ≤ m then 0x7bff
  else if m / 2 ^ 23 < 103 then 0
  else if m / 2 ^ 23 < 113 then carried (2 ^ 23 + m % 2 ^ 23) (126 - m / 2 ^ 23)
  else (m / 2 ^ 23 - 112) * 2 ^ 10 + carried (m % 2 ^ 23) 13

/-- The magnitude a single-precision magnitude is stored at in bfloat16. -/
def storedBf16 (m : ℕ) : ℕ :=
  if 0x7f800000 < m then m / 2 ^ 16 ||| 0x40 else carried m 16

theorem carried_le (value shift : ℕ) {bound : ℕ} (h : value < bound * 2 ^ shift) :
    carried value shift ≤ bound := by
  have hdiv : value / 2 ^ shift < bound := Nat.div_lt_of_lt_mul (Nat.mul_comm bound _ ▸ h)
  rw [carried]
  split_ifs <;> omega

theorem stored16_lt (m : ℕ) : stored16 m < 2 ^ 15 := by
  rw [stored16]
  split_ifs with hnan hmax hzero hsub
  · decide
  · decide
  · decide
  · have hlt : 2 ^ 23 + m % 2 ^ 23 < 2 ^ 10 * 2 ^ (126 - m / 2 ^ 23) :=
      calc 2 ^ 23 + m % 2 ^ 23 < 2 ^ 10 * 2 ^ 14 := by omega
        _ ≤ 2 ^ 10 * 2 ^ (126 - m / 2 ^ 23) :=
          Nat.mul_le_mul_left _ (Nat.pow_le_pow_right (by decide) (by omega))
    exact Nat.lt_of_le_of_lt (carried_le _ _ hlt) (by decide)
  · have := carried_le (m % 2 ^ 23) 13 (show _ < 2 ^ 10 * 2 ^ 13 by omega)
    omega

private theorem toNat_sign (bits : UInt32) :
    ((bits >>> 16) &&& 0x8000).toUInt16.toNat = 2 ^ 15 * (bits.toNat / 2 ^ 31) := by
  have hand : ((bits >>> 16) &&& 0x8000).toNat =
      ((bits.toNat / 2 ^ 16).testBit 15).toNat * 2 ^ 15 := by
    rw [UInt32.toNat_and, toNat_shiftRight _ (by decide)]
    exact Nat.and_two_pow _ 15
  rw [UInt32.toNat_toUInt16, hand, Nat.toNat_testBit, Nat.div_div_eq_div_mul]
  have := bits.toNat_lt
  omega

private theorem toNat_sign_or {sign : UInt16} {negative : ℕ} {low : UInt16}
    (hsign : sign.toNat = 2 ^ 15 * negative) (hlow : low.toNat < 2 ^ 15) :
    (sign ||| low).toNat = 2 ^ 15 * negative + low.toNat := by
  rw [UInt16.toNat_or, hsign, ← Nat.two_pow_add_eq_or_of_lt hlow]

theorem toNat_f32ToF16 (bits : UInt32) :
    (f32ToF16 bits).toNat = 2 ^ 15 * (bits.toNat / 2 ^ 31) + stored16 (bits.toNat % 2 ^ 31) := by
  have hsign := toNat_sign bits
  have hexponent : ((bits >>> 23) &&& 0xff).toNat = bits.toNat % 2 ^ 31 / 2 ^ 23 := by
    rw [toNat_and_mask _ (n := 8) rfl, toNat_shiftRight _ (by decide)]
    have := bits.toNat_lt
    change bits.toNat / 2 ^ 23 % 2 ^ 8 = _
    omega
  have hmantissa : (bits &&& 0x007fffff).toNat = bits.toNat % 2 ^ 31 % 2 ^ 23 := by
    rw [toNat_and_mask _ (n := 23) rfl]
    omega
  obtain ⟨m, hm⟩ : ∃ m, m = bits.toNat % 2 ^ 31 := ⟨_, rfl⟩
  have hmlt : m < 2 ^ 31 := hm ▸ Nat.mod_lt _ (by decide)
  have hnan := isNan_iff bits
  have hmax : f16Max ≤ magnitude bits ↔ 0x477fe000 ≤ bits.toNat % 2 ^ 31 := by
    rw [UInt32.le_iff_toNat_le, toNat_magnitude]
    rfl
  have hlow := stored16_lt (bits.toNat % 2 ^ 31)
  rw [← hm] at hexponent hmantissa hnan hmax hlow ⊢
  rw [f32ToF16, stored16]
  rw [stored16] at hlow
  simp only [hexponent]
  by_cases h₁ : 0x7f800000 < m
  · rw [if_pos (hnan.mpr h₁), if_pos h₁]
    exact toNat_sign_or hsign (by decide)
  rw [if_neg (mt hnan.mp h₁), if_neg h₁]
  rw [if_neg h₁] at hlow
  by_cases h₂ : 0x477fe000 ≤ m
  · rw [if_pos (hmax.mpr h₂), if_pos h₂]
    exact toNat_sign_or hsign (by decide)
  rw [if_neg (mt hmax.mp h₂), if_neg h₂]
  rw [if_neg h₂] at hlow
  by_cases h₃ : m / 2 ^ 23 < 103
  · rw [if_pos (show ((m / 2 ^ 23 : ℕ) : ℤ) - 127 < -24 by omega), if_pos h₃]
    exact hsign
  rw [if_neg (show ¬ ((m / 2 ^ 23 : ℕ) : ℤ) - 127 < -24 by omega), if_neg h₃]
  rw [if_neg h₃] at hlow
  by_cases h₄ : m / 2 ^ 23 < 113
  · rw [if_pos (show ((m / 2 ^ 23 : ℕ) : ℤ) - 127 < -14 by omega), if_pos h₄]
    rw [if_pos h₄] at hlow
    have hshift : (UInt32.ofNat (-14 - (((m / 2 ^ 23 : ℕ) : ℤ) - 127)).toNat + 13).toNat =
        126 - m / 2 ^ 23 := by
      rw [UInt32.toNat_add, UInt32.toNat_ofNat]
      change (_ % 2 ^ 32 + 13) % 2 ^ 32 = _
      omega
    have hsignificand : ((bits &&& 0x007fffff) ||| 0x00800000).toNat = 2 ^ 23 + m % 2 ^ 23 := by
      rw [UInt32.toNat_or, hmantissa, Nat.or_comm]
      have := Nat.two_pow_add_eq_or_of_lt (Nat.mod_lt m (Nat.two_pow_pos 23)) 1
      rw [Nat.mul_one] at this
      exact this.symm
    have hround := toNat_roundShift ((bits &&& 0x007fffff) ||| 0x00800000)
      (hshift.symm ▸ (by omega : 0 < 126 - m / 2 ^ 23)) (hshift.symm ▸ (by omega))
    rw [hshift, hsignificand] at hround
    have hnarrow : (roundShift ((bits &&& 0x007fffff) ||| 0x00800000)
        (UInt32.ofNat (-14 - (((m / 2 ^ 23 : ℕ) : ℤ) - 127)).toNat + 13)).toUInt16.toNat =
          carried (2 ^ 23 + m % 2 ^ 23) (126 - m / 2 ^ 23) := by
      rw [UInt32.toNat_toUInt16, hround, Nat.mod_eq_of_lt (Nat.lt_trans hlow (by decide))]
    rw [toNat_sign_or hsign (hnarrow.symm ▸ hlow), hnarrow]
  · rw [if_neg (show ¬ ((m / 2 ^ 23 : ℕ) : ℤ) - 127 < -14 by omega), if_neg h₄]
    rw [if_neg h₄] at hlow
    have hround := toNat_roundShift (bits &&& 0x007fffff) (show 0 < (13 : UInt32).toNat by decide)
      (by decide)
    rw [hmantissa] at hround
    change _ = carried (m % 2 ^ 23) 13 at hround
    have hbits : (UInt32.ofNat ((((m / 2 ^ 23 : ℕ) : ℤ) - 127) + 15).toNat <<< 10).toNat =
        (m / 2 ^ 23 - 112) * 2 ^ 10 := by
      rw [UInt32.toNat_shiftLeft, UInt32.toNat_ofNat, Nat.shiftLeft_eq]
      change (_ % 2 ^ 32) * 2 ^ 10 % 2 ^ 32 = _
      omega
    have hsum : (UInt32.ofNat ((((m / 2 ^ 23 : ℕ) : ℤ) - 127) + 15).toNat <<< 10 +
        roundShift (bits &&& 0x007fffff) 13).toNat =
          (m / 2 ^ 23 - 112) * 2 ^ 10 + carried (m % 2 ^ 23) 13 := by
      rw [UInt32.toNat_add, hbits, hround, Nat.mod_eq_of_lt (Nat.lt_trans hlow (by decide))]
    rw [UInt32.toNat_toUInt16, UInt32.toNat_or, UInt16.toNat_toUInt32, hsign, hsum,
      ← Nat.two_pow_add_eq_or_of_lt hlow]
    have := bits.toNat_lt
    omega

/-- **The addition stays in its word**: a number that is not a NaN leaves room for the carry. -/
theorem toNat_f32ToBf16_add {bits : UInt32} (h : ¬ isNan bits) :
    (bits + (0x7fff : UInt32) + ((bits >>> 16) &&& 1)).toNat =
      bits.toNat + 0x7fff + bits.toNat / 2 ^ 16 % 2 := by
  rw [isNan_iff] at h
  have hlast : ((bits >>> 16) &&& 1).toNat = bits.toNat / 2 ^ 16 % 2 := by
    rw [toNat_and_mask _ (n := 1) rfl, toNat_shiftRight _ (by decide)]
    rfl
  rw [UInt32.toNat_add, UInt32.toNat_add, hlast]
  change ((bits.toNat + 0x7fff) % 2 ^ 32 + _) % 2 ^ 32 = _
  have := bits.toNat_lt
  omega

private theorem add_carry {negative top rem : ℕ} (hrem : rem < 2 ^ 16) :
    (negative * 2 ^ 31 + (top * 2 ^ 16 + rem) + 0x7fff + top % 2) / 2 ^ 16 =
      2 ^ 15 * negative + if 2 ^ 15 < rem ∨ rem = 2 ^ 15 ∧ top % 2 = 1 then top + 1 else top := by
  split_ifs <;> omega

theorem toNat_f32ToBf16 (bits : UInt32) : (f32ToBf16 bits).toNat =
    2 ^ 15 * (bits.toNat / 2 ^ 31) + storedBf16 (bits.toNat % 2 ^ 31) := by
  have hbits := bits.toNat_lt
  have hnan := isNan_iff bits
  rw [f32ToBf16, storedBf16]
  by_cases h : isNan bits
  · rw [if_pos h, if_pos (hnan.mp h)]
    have htop : (bits >>> 16).toUInt16.toNat =
        2 ^ 15 * (bits.toNat / 2 ^ 31) + bits.toNat % 2 ^ 31 / 2 ^ 16 := by
      rw [UInt32.toNat_toUInt16, toNat_shiftRight _ (by decide)]
      change bits.toNat / 2 ^ 16 % 2 ^ 16 = _
      omega
    have hlow : bits.toNat % 2 ^ 31 / 2 ^ 16 < 2 ^ 15 := by omega
    rw [UInt16.toNat_or, htop, Nat.two_pow_add_eq_or_of_lt hlow, Nat.or_assoc,
      Nat.two_pow_add_eq_or_of_lt (Nat.or_lt_two_pow hlow (by decide))]
    rfl
  · rw [if_neg h, if_neg (mt hnan.mpr h), UInt32.toNat_toUInt16, toNat_shiftRight _ (by decide),
      toNat_f32ToBf16_add h, carried]
    have hfinite := mt hnan.mpr h
    obtain ⟨negative, hnegative⟩ : ∃ negative, bits.toNat / 2 ^ 31 = negative := ⟨_, rfl⟩
    obtain ⟨top, htop⟩ : ∃ top, bits.toNat % 2 ^ 31 / 2 ^ 16 = top := ⟨_, rfl⟩
    have hparts : bits.toNat =
        negative * 2 ^ 31 + (top * 2 ^ 16 + bits.toNat % 2 ^ 31 % 2 ^ 16) := by omega
    have hlast : bits.toNat / 2 ^ 16 % 2 = top % 2 := by omega
    have hsum := @add_carry negative top _
      (Nat.mod_lt (bits.toNat % 2 ^ 31) (Nat.two_pow_pos 16))
    rw [← hparts, ← hlast] at hsum
    change (bits.toNat + 0x7fff + bits.toNat / 2 ^ 16 % 2) / 2 ^ 16 % 2 ^ 16 = _
    rw [hsum, hnegative, htop, ← hlast]
    refine Nat.mod_eq_of_lt ?_
    split_ifs <;> omega

/-! ### Nearest numbers -/

/-- The fractions of single precision cut to those of bfloat16. -/
theorem units_cut (m : ℕ) : units 23 m =
    units 7 (m / 2 ^ 16) * 2 ^ 16 + m % 2 ^ 16 * unitStep 7 (m / 2 ^ 16) := by
  have hdiv : m / 2 ^ 16 / 2 ^ 7 = m / 2 ^ 23 := Nat.div_div_eq_div_mul ..
  have hfraction : m % 2 ^ 23 = m / 2 ^ 16 % 2 ^ 7 * 2 ^ 16 + m % 2 ^ 16 := by omega
  rw [units, units, unitStep, hdiv]
  split_ifs with hzero
  · rw [hzero, hfraction]
    ring
  · rw [hfraction]
    ring

/-- **bfloat16 storage is nearest** below the midpoint after the largest finite number, and carries
into the infinity from there on. -/
theorem nearest_storedBf16_iff {m : ℕ} (h : m ≤ 0x7f800000) :
    NearestEven 7 0x7f7f (2 ^ 16) (units 23 m) (storedBf16 m) ↔ m < 0x7f7f8000 := by
  rw [storedBf16, if_neg (Nat.not_lt.mpr h)]
  constructor
  · intro hnearest
    have hle := hnearest.1
    rw [carried] at hle
    split_ifs at hle <;> omega
  · intro hlt
    refine nearestEven_carry (unitStep_pos 7 (m / 2 ^ 16)) (by decide) (units_cut m) (by ring)
      (Nat.mod_lt _ (by decide)) ?_
    split_ifs <;> omega

/-- The steps of binary16 in units of single precision. -/
theorem units_normal {exponent fraction : ℕ} (hexponent : 113 ≤ exponent)
    (hfraction : fraction < 2 ^ 23) :
    units 23 (exponent * 2 ^ 23 + fraction) =
      units 10 ((exponent - 112) * 2 ^ 10 + fraction / 2 ^ 13) * 2 ^ 125 +
        fraction % 2 ^ 13 * 2 ^ (exponent - 1) := by
  obtain ⟨above, rfl⟩ : ∃ above, exponent = above + 113 :=
    ⟨exponent - 113, (Nat.sub_add_cancel hexponent).symm⟩
  rw [units_mk hfraction (by omega), units_mk (by omega) (by omega),
    show above + 113 - 1 = above + 112 from rfl, show above + 113 - 112 - 1 = above by omega]
  conv_lhs => rw [← Nat.div_add_mod' fraction (2 ^ 13)]
  ring

theorem unitStep_normal {exponent fraction : ℕ} (hfraction : fraction < 2 ^ 23) :
    unitStep 10 ((exponent - 112) * 2 ^ 10 + fraction / 2 ^ 13) = 2 ^ (exponent - 113) := by
  have hdiv : ((exponent - 112) * 2 ^ 10 + fraction / 2 ^ 13) / 2 ^ 10 = exponent - 112 := by omega
  rw [unitStep, hdiv, Nat.sub_sub]

/-- **binary16 storage is nearest** but between half the smallest subnormal and the smallest
subnormal, which it flushes to zero. -/
theorem nearest_stored16_iff {m : ℕ} (h : m ≤ 0x7f800000) :
    NearestEven 10 0x7bff (2 ^ 125) (units 23 m) (stored16 m) ↔
      ¬ (102 * 2 ^ 23 < m ∧ m < 103 * 2 ^ 23) := by
  have hm : m / 2 ^ 23 * 2 ^ 23 + m % 2 ^ 23 = m := Nat.div_add_mod' ..
  have hfraction : m % 2 ^ 23 < 2 ^ 23 := Nat.mod_lt _ (by decide)
  have hscale : 0 < 2 ^ 125 := Nat.two_pow_pos 125
  rw [stored16, if_neg (Nat.not_lt.mpr h)]
  by_cases hmax : 0x477fe000 ≤ m
  · -- over the largest finite number
    rw [if_pos hmax]
    refine iff_of_true (nearestEven_top hscale ?_) (by omega)
    have htop : units 10 0x7bff * 2 ^ 125 = units 23 0x477fe000 := by decide +kernel
    rw [htop]
    exact (units_strictMono 23).monotone hmax
  rw [if_neg hmax]
  by_cases hzero : m / 2 ^ 23 < 103
  · rw [if_pos hzero]
    -- a half is a tie, and zero is even
    have hhalf : units 23 (102 * 2 ^ 23) = 2 ^ 124 := by decide +kernel
    have hone : units 10 1 * 2 ^ 125 = 2 * 2 ^ 124 := by decide +kernel
    have hnone : units 10 0 = 0 := units_subnormal (by decide)
    constructor
    · rintro ⟨-, hnearest⟩ ⟨habove, -⟩
      have := units_strictMono 23 habove
      rw [hhalf] at this
      have hsmall : units 23 m < units 23 (103 * 2 ^ 23) := units_strictMono 23 (by omega)
      have hsmallest : units 23 (103 * 2 ^ 23) = 2 * 2 ^ 124 := by decide +kernel
      have hnear := hnearest 1 (by decide) (by decide)
      rw [hone, hnone, Nat.zero_mul, Nat.dist, Nat.dist] at hnear
      omega
    · intro hnot
      have hle : units 23 m ≤ 2 ^ 124 := by
        rw [← hhalf]
        exact (units_strictMono 23).monotone (by omega)
      refine nearestEven_of_between hscale (by decide)
        (fun hpos => absurd hpos (Nat.lt_irrefl _)) fun _ => ⟨?_, fun _ => rfl⟩
      rw [Nat.add_mul, Nat.zero_add, hone, hnone]
      omega
  rw [if_neg hzero]
  by_cases hsub : m / 2 ^ 23 < 113
  · rw [if_pos hsub]
    refine iff_of_true ?_ (by omega)
    obtain ⟨shift, hshift, hexponent⟩ : ∃ shift, 126 - m / 2 ^ 23 = shift + 14 ∧
        m / 2 ^ 23 - 1 = 125 - (shift + 14) :=
      ⟨126 - m / 2 ^ 23 - 14, by omega, by omega⟩
    have hle : shift + 14 ≤ 125 := by omega
    have hpow : 2 ^ (shift + 14) * 2 ^ (125 - (shift + 14)) = 2 ^ 125 := by
      rw [← Nat.pow_add, Nat.add_sub_cancel' hle]
    have hcut : (2 ^ 23 + m % 2 ^ 23) / 2 ^ (shift + 14) < 2 ^ 10 := by
      refine Nat.div_lt_of_lt_mul (Nat.lt_of_lt_of_le (show _ < 2 ^ 14 * 2 ^ 10 by omega) ?_)
      exact Nat.mul_le_mul_right _ (Nat.pow_le_pow_right (by decide) (by omega))
    rw [hshift, carried]
    refine nearestEven_carry (Nat.two_pow_pos (m / 2 ^ 23 - 1)) hscale ?_ ?_ ?_ ?_
    · rw [units_subnormal hcut]
      conv_lhs => rw [← hm]
      rw [units_mk hfraction (by omega), hexponent, ← hpow]
      conv_lhs => rw [← Nat.div_add_mod' (2 ^ 23 + m % 2 ^ 23) (2 ^ (shift + 14))]
      ring
    · rw [unitStep, Nat.div_eq_of_lt hcut, hexponent, ← hpow, show shift + 14 - 1 = shift + 13
        from rfl]
      ring
    · rw [show shift + 14 - 1 = shift + 13 from rfl, ← Nat.pow_succ']
      exact Nat.mod_lt _ (Nat.two_pow_pos _)
    · split_ifs <;> omega
  · rw [if_neg hsub]
    refine iff_of_true ?_ (by omega)
    have hparity : ((m / 2 ^ 23 - 112) * 2 ^ 10 + m % 2 ^ 23 / 2 ^ 13) % 2 =
        m % 2 ^ 23 / 2 ^ 13 % 2 := by omega
    have hcarry : (m / 2 ^ 23 - 112) * 2 ^ 10 + carried (m % 2 ^ 23) 13 =
        if 2 ^ 12 < m % 2 ^ 23 % 2 ^ 13 ∨ m % 2 ^ 23 % 2 ^ 13 = 2 ^ 12 ∧
            ((m / 2 ^ 23 - 112) * 2 ^ 10 + m % 2 ^ 23 / 2 ^ 13) % 2 = 1 then
          (m / 2 ^ 23 - 112) * 2 ^ 10 + m % 2 ^ 23 / 2 ^ 13 + 1
        else (m / 2 ^ 23 - 112) * 2 ^ 10 + m % 2 ^ 23 / 2 ^ 13 := by
      rw [hparity, carried]
      split_ifs
      · exact (Nat.add_assoc _ _ _).symm
      · exact Eq.refl _
    rw [hcarry]
    refine nearestEven_carry (Nat.two_pow_pos (m / 2 ^ 23 - 1)) hscale ?_ ?_ ?_ ?_
    · conv_lhs => rw [← hm]
      exact units_normal (by omega) hfraction
    · rw [unitStep_normal hfraction, show 2 * 2 ^ 12 = 2 ^ 13 from rfl, ← Nat.pow_add,
        ← Nat.pow_add]
      congr 1
      omega
    · exact Nat.mod_lt _ (by decide)
    · split_ifs <;> omega

/-! ### Reading back -/

/-- The single-precision magnitude a binary16 magnitude is read as. -/
def wide16 (r : ℕ) : ℕ :=
  if r / 2 ^ 10 = 0 then
    if r % 2 ^ 10 = 0 then 0 else (timesSmallest (.ofNat (r % 2 ^ 10))).toNat
  else if r / 2 ^ 10 = 0x1f then 0x7f800000 + r % 2 ^ 10 * 2 ^ 13
  else (r / 2 ^ 10 + 112) * 2 ^ 23 + r % 2 ^ 10 * 2 ^ 13

/-- The product is exact: `n` times the smallest subnormal. -/
theorem toNat_timesSmallest {n : ℕ} (hpos : 0 < n) (hlt : n < 2 ^ 10) :
    (timesSmallest (.ofNat n)).toNat < 0x7f800000 ∧
      units 23 (timesSmallest (.ofNat n)).toNat = n * 2 ^ 125 := by
  have hn : (UInt32.ofNat n).toNat = n := by
    rw [UInt32.toNat_ofNat']
    exact Nat.mod_eq_of_lt (Nat.lt_trans hlt (by decide))
  have hlog : n.log2 < 10 := (Nat.log2_lt hpos.ne').mpr hlt
  have hle := Nat.log2_self_le hpos.ne'
  have hgt : n < 2 ^ (n.log2 + 1) := Nat.lt_log2_self
  obtain ⟨shift, hshift⟩ : ∃ shift, 23 - n.log2 = shift := ⟨_, rfl⟩
  have hlow : 2 ^ 23 ≤ n * 2 ^ shift := by
    calc 2 ^ 23 = 2 ^ n.log2 * 2 ^ shift := by rw [← Nat.pow_add]; congr 1; omega
      _ ≤ n * 2 ^ shift := Nat.mul_le_mul_right _ hle
  have hhigh : n * 2 ^ shift < 2 ^ 24 := by
    calc n * 2 ^ shift < 2 ^ (n.log2 + 1) * 2 ^ shift :=
          Nat.mul_lt_mul_of_pos_right hgt (Nat.two_pow_pos _)
      _ = 2 ^ 24 := by rw [← Nat.pow_add]; congr 1; omega
  have hbits : (timesSmallest (.ofNat n)).toNat =
      (103 + n.log2) * 2 ^ 23 + (n * 2 ^ shift - 2 ^ 23) := by
    rw [timesSmallest, hn, hshift, UInt32.toNat_ofNat']
    exact Nat.mod_eq_of_lt (by omega)
  have hexponent : shift + (103 + n.log2 - 1) = 125 := by omega
  rw [hbits, units_mk (by omega) (by omega), Nat.add_sub_cancel' hlow, Nat.mul_assoc,
    ← Nat.pow_add, hexponent]
  exact ⟨by omega, rfl⟩

theorem wide16_lt {r : ℕ} (h : r < 2 ^ 15) : wide16 r < 2 ^ 31 := by
  rw [wide16]
  split_ifs
  · decide
  · exact Nat.lt_trans (toNat_timesSmallest (by omega) (by omega)).1 (by decide)
  · omega
  · omega

/-- **Widening is exact.** -/
theorem units_wide16 {r : ℕ} (h : r ≤ 0x7bff) :
    wide16 r < 0x7f800000 ∧ units 23 (wide16 r) = units 10 r * 2 ^ 125 := by
  have hr : r / 2 ^ 10 * 2 ^ 10 + r % 2 ^ 10 = r := Nat.div_add_mod' ..
  rw [wide16]
  split_ifs with hexponent hmantissa hspecial
  · have hzero : r = 0 := by omega
    refine ⟨by decide, ?_⟩
    rw [hzero, units_subnormal (by decide), units_subnormal (by decide), Nat.zero_mul]
  · obtain ⟨hlt, hunits⟩ := toNat_timesSmallest (n := r % 2 ^ 10) (by omega) (by omega)
    refine ⟨hlt, hunits.trans ?_⟩
    rw [units_subnormal (show r < 2 ^ 10 by omega), Nat.mod_eq_of_lt (by omega)]
  · omega
  · refine ⟨by omega, ?_⟩
    have hexponent' : r / 2 ^ 10 + 112 - 1 = r / 2 ^ 10 - 1 + 112 := by omega
    conv_rhs => rw [← hr]
    rw [units_mk (by omega) (by omega), units_mk (Nat.mod_lt _ (by decide)) (by omega), hexponent']
    ring

/-- A magnitude that is stored is stored again as it was. -/
theorem stored16_wide16 {r : ℕ} (h : r ≤ 0x7bff) : stored16 (wide16 r) = r := by
  obtain ⟨hlt, hunits⟩ := units_wide16 h
  have hscale : 0 < 2 ^ 125 := Nat.two_pow_pos 125
  have hnearest : NearestEven 10 0x7bff (2 ^ 125) (units 23 (wide16 r)) (stored16 (wide16 r)) := by
    refine (nearest_stored16_iff hlt.le).mpr ?_
    -- what is read is zero or at least the smallest subnormal
    rintro ⟨hlow, hhigh⟩
    have hlow' := units_strictMono 23 hlow
    have hhigh' := units_strictMono 23 hhigh
    have hhalf : units 23 (102 * 2 ^ 23) = 2 ^ 124 := by decide +kernel
    have hsmallest : units 23 (103 * 2 ^ 23) = 2 ^ 125 := by decide +kernel
    rw [hhalf, hunits] at hlow'
    rw [hsmallest, hunits] at hhigh'
    have hlt : units 10 r < 1 := Nat.lt_of_mul_lt_mul_right (by rwa [Nat.one_mul])
    rw [Nat.lt_one_iff.mp hlt, Nat.zero_mul] at hlow'
    exact absurd hlow' (Nat.not_lt_zero _)
  rw [hunits] at hnearest
  exact hnearest.unique hscale (nearestEven_self hscale h)

private theorem toNat_sign_or_wide {sign low : UInt32} {negative : ℕ}
    (hsign : sign.toNat = 2 ^ 31 * negative) (hlow : low.toNat < 2 ^ 31) :
    (sign ||| low).toNat = 2 ^ 31 * negative + low.toNat := by
  rw [UInt32.toNat_or, hsign, ← Nat.two_pow_add_eq_or_of_lt hlow]

theorem toNat_f16ToF32 (bits : UInt16) :
    (f16ToF32 bits).toNat = 2 ^ 31 * (bits.toNat / 2 ^ 15) + wide16 (bits.toNat % 2 ^ 15) := by
  have hbits := bits.toNat_lt
  have hsign : ((bits.toUInt32 &&& 0x8000) <<< 16).toNat = 2 ^ 31 * (bits.toNat / 2 ^ 15) := by
    have hand : (bits.toUInt32 &&& 0x8000).toNat = (bits.toNat.testBit 15).toNat * 2 ^ 15 := by
      rw [UInt32.toNat_and, UInt16.toNat_toUInt32]
      exact Nat.and_two_pow _ 15
    rw [UInt32.toNat_shiftLeft, hand, Nat.toNat_testBit, Nat.shiftLeft_eq]
    change _ * 2 ^ 16 % 2 ^ 32 = _
    omega
  have hexponent : ((bits >>> 10) &&& 0x1f).toUInt32.toNat = bits.toNat % 2 ^ 15 / 2 ^ 10 := by
    have hshift : (bits >>> 10).toNat = bits.toNat / 2 ^ 10 := by
      rw [UInt16.toNat_shiftRight, Nat.shiftRight_eq_div_pow]
      rfl
    rw [UInt16.toNat_toUInt32, UInt16.toNat_and, hshift]
    change bits.toNat / 2 ^ 10 &&& 2 ^ 5 - 1 = _
    rw [Nat.and_two_pow_sub_one_eq_mod]
    omega
  have hfraction : (bits &&& 0x03ff).toUInt32.toNat = bits.toNat % 2 ^ 15 % 2 ^ 10 := by
    rw [UInt16.toNat_toUInt32, UInt16.toNat_and]
    change bits.toNat &&& 2 ^ 10 - 1 = _
    rw [Nat.and_two_pow_sub_one_eq_mod]
    omega
  have hmantissa : ((bits.toUInt32 &&& 0x03ff) <<< 13).toNat =
      bits.toNat % 2 ^ 15 % 2 ^ 10 * 2 ^ 13 := by
    rw [UInt32.toNat_shiftLeft, toNat_and_mask _ (n := 10) rfl, UInt16.toNat_toUInt32,
      Nat.shiftLeft_eq]
    change _ * 2 ^ 13 % 2 ^ 32 = _
    omega
  obtain ⟨r, hr⟩ : ∃ r, bits.toNat % 2 ^ 15 = r := ⟨_, rfl⟩
  have hlow := wide16_lt (hr ▸ Nat.mod_lt _ (by decide) : r < 2 ^ 15)
  rw [hr] at hexponent hfraction hmantissa ⊢
  rw [f16ToF32, wide16]
  rw [wide16] at hlow
  simp only [← UInt32.toNat_inj, hexponent, hmantissa]
  by_cases hzero : r / 2 ^ 10 = 0
  · rw [if_pos hzero] at hlow
    rw [if_pos (show r / 2 ^ 10 = (0 : UInt32).toNat from hzero), if_pos hzero]
    by_cases hnone : r % 2 ^ 10 = 0
    · rw [if_pos (by rw [hnone]; rfl), if_pos hnone]
      exact hsign
    · have hne : ¬ r % 2 ^ 10 * 2 ^ 13 = (0 : UInt32).toNat := by
        change ¬ _ = 0
        omega
      rw [if_neg hnone] at hlow
      rw [if_neg hne, if_neg hnone]
      have hsame : (bits &&& 0x03ff).toUInt32 = .ofNat (r % 2 ^ 10) := by
        rw [← UInt32.toNat_inj, hfraction, UInt32.toNat_ofNat']
        exact (Nat.mod_eq_of_lt (by omega)).symm
      rw [hsame]
      exact toNat_sign_or_wide hsign hlow
  · rw [if_neg hzero] at hlow
    rw [if_neg (show ¬ r / 2 ^ 10 = (0 : UInt32).toNat from hzero), if_neg hzero]
    have hfit : r % 2 ^ 10 * 2 ^ 13 < 2 ^ 23 := by omega
    by_cases hspecial : r / 2 ^ 10 = 0x1f
    · rw [if_pos (show r / 2 ^ 10 = (0x1f : UInt32).toNat from hspecial), if_pos hspecial]
      have hor : ((0x7f800000 : UInt32) ||| ((bits.toUInt32 &&& 0x03ff) <<< 13)).toNat =
          0x7f800000 + r % 2 ^ 10 * 2 ^ 13 := by
        rw [UInt32.toNat_or, hmantissa]
        exact (Nat.two_pow_add_eq_or_of_lt hfit 0xff).symm
      rw [UInt32.or_assoc, toNat_sign_or_wide hsign (by rw [hor]; omega), hor]
    · rw [if_neg (show ¬ r / 2 ^ 10 = (0x1f : UInt32).toNat from hspecial), if_neg hspecial]
      have hshifted : ((((bits >>> 10) &&& 0x1f).toUInt32 + 112) <<< 23).toNat =
          2 ^ 23 * (r / 2 ^ 10 + 112) := by
        rw [UInt32.toNat_shiftLeft, UInt32.toNat_add, hexponent, Nat.shiftLeft_eq]
        change (r / 2 ^ 10 + 112) % 2 ^ 32 * 2 ^ 23 % 2 ^ 32 = _
        omega
      have hor : ((((bits >>> 10) &&& 0x1f).toUInt32 + 112) <<< 23 |||
          ((bits.toUInt32 &&& 0x03ff) <<< 13)).toNat =
            (r / 2 ^ 10 + 112) * 2 ^ 23 + r % 2 ^ 10 * 2 ^ 13 := by
        rw [UInt32.toNat_or, hmantissa, hshifted, ← Nat.two_pow_add_eq_or_of_lt hfit,
          Nat.mul_comm (2 ^ 23)]
      rw [if_neg hspecial] at hlow
      rw [UInt32.or_assoc, toNat_sign_or_wide hsign (hor.symm ▸ hlow), hor]

theorem toNat_bf16ToF32 (bits : UInt16) : (bf16ToF32 bits).toNat = bits.toNat * 2 ^ 16 := by
  rw [bf16ToF32, UInt32.toNat_shiftLeft, UInt16.toNat_toUInt32, Nat.shiftLeft_eq]
  change _ * 2 ^ 16 % 2 ^ 32 = _
  have := bits.toNat_lt
  omega

end Retrograd.Training.Features
