import Mathlib

/-!
# Facts about floating-point numbers

`Float32` and `Float` carry their IEEE meaning bit for bit: a number is unpacked into sign,
mantissa and exponent, the exact operation is rounded, and the result is packed again. Added
here are the conversions between the two widths, through the same unpacked form, and the one
law about comparison the programs rely on: `==` is **symmetric and transitive**, for every
value. It is not reflexive, a NaN being different from itself.
-/

namespace Retrograd.Logic

open Float.Model

/-! ### Conversions -/

/-- An unpacked number rounded to the nearest one of a format, ties to even. -/
def convert (fmt : Format) : UnpackedFloat → UnpackedFloat
  | .finite sign mantissa exponent _ => UnpackedFloat.round fmt sign mantissa exponent
  | special => special

/-- The double-precision value of a single-precision number (`as f64`); always exact. -/
def toF64 (x : Float32) : Float := .ofModel (.pack (convert .binary64 x.toModel.unpack))

/-- The nearest single-precision number to a double-precision one (`as f32`). -/
def toF32 (x : Float) : Float32 := .ofModel (.pack (convert .binary32 x.toModel.unpack))

/-- A count as a single-precision number (`as f32`). -/
def f32OfNat (n : ℕ) : Float32 := .ofModel (.ofNat n)

/-- A count as a double-precision number (`as f64`). -/
def f64OfNat (n : ℕ) : Float := .ofModel (.ofNat n)

/-- The largest finite single-precision number (`f32::MAX`). -/
def f32Max : Float32 := .ofBits 0x7f7fffff

/-- The smallest finite single-precision number (`f32::MIN`). -/
def f32Min : Float32 := .ofBits 0xff7fffff

/-- The distance from one to the next single-precision number (`f32::EPSILON`). -/
def f32Epsilon : Float32 := .ofBits 0x34000000

/-! ### Equality -/

/-- What IEEE equality compares: the two zeros are one value, a NaN has none. -/
private def key : UnpackedFloat → Option (UnpackedFloat.Sign ⊕ Option (UnpackedFloat.Sign × ℕ × ℤ))
  | .notANumber => none
  | .infinity sign => some (.inl sign)
  | .zero _ => some (.inr none)
  | .finite sign mantissa exponent _ => some (.inr (some (sign, mantissa, exponent)))

private theorem compare_sign_eq (s s' : UnpackedFloat.Sign) :
    compare s s' = .eq ↔ s = s' := by
  cases s <;> cases s' <;> simp [compare]

private theorem beq_iff (a b : UnpackedFloat) :
    a.beq b = true ↔ key a = key b ∧ key a ≠ none := by
  rw [UnpackedFloat.beq, beq_iff_eq]
  rcases a with s | _ | s | ⟨s, m, e, hm⟩ <;> rcases b with s' | _ | s' | ⟨s', m', e', hm'⟩
  -- equal kinds are compared field by field; different kinds never compare equal
  case infinity.infinity => simp [UnpackedFloat.compare, key, compare_sign_eq]
  case finite.finite =>
    cases s <;> cases s' <;>
      simp [UnpackedFloat.compare, key, and_comm]
  all_goals first
    | (simp [UnpackedFloat.compare, key]; done)
    | (cases s <;> simp [UnpackedFloat.compare, key]; done)
    | (cases s' <;> simp [UnpackedFloat.compare, key])

/-- Equality of numbers is symmetric. -/
theorem f32_beq_symm {x y : Float32} (h : (x == y) = true) : (y == x) = true := by
  obtain ⟨hxy, hx⟩ := (beq_iff x.toModel.unpack y.toModel.unpack).mp h
  exact (beq_iff y.toModel.unpack x.toModel.unpack).mpr ⟨hxy.symm, hxy ▸ hx⟩

/-- Two numbers equal to a third are equal. -/
theorem f32_beq_trans {x y z : Float32} (h : (x == y) = true) (h' : (y == z) = true) :
    (x == z) = true := by
  obtain ⟨hxy, hx⟩ := (beq_iff x.toModel.unpack y.toModel.unpack).mp h
  obtain ⟨hyz, _⟩ := (beq_iff y.toModel.unpack z.toModel.unpack).mp h'
  exact (beq_iff x.toModel.unpack z.toModel.unpack).mpr ⟨hxy.trans hyz, hx⟩

example : toF32 (toF64 0.5) = 0.5 ∧ (toF32 0.1 == 0.1) = true := by decide +kernel

end Retrograd.Logic
