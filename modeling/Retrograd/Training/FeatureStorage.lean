import Retrograd.Training.Features

/-!
# What a feature store keeps

The two conversions as storage: **where** they store the nearest number of their format, that they
are **monotone**, and that a value that was read back is stored as the **same bits**. A value is
counted in units of the smallest subnormal, its sign apart.
-/

namespace Retrograd.Training.Features

open Logic

/-! ### The two formats -/

/-- A format of sixteen bits: its fraction, its smallest subnormal in units of the smallest
single-precision one, its largest finite magnitude and its infinity. -/
structure Format where
  fraction : ℕ
  scale : ℕ
  top : ℕ
  infinity : ℕ

def binary16 : Format := ⟨10, 2 ^ 125, 0x7bff, 0x7c00⟩

def bfloat16 : Format := ⟨7, 2 ^ 16, 0x7f7f, 0x7f80⟩

/-- A number is stored as the nearest of a format, ties to even; over the largest finite magnitude
it saturates, and a NaN stays one. -/
structure Stores (format : Format) (bits : UInt32) (stored : UInt16) : Prop where
  sign : stored.toNat / 2 ^ 15 = bits.toNat / 2 ^ 31
  nan : isNan bits → format.infinity < stored.toNat % 2 ^ 15
  nearest : ¬ isNan bits → NearestEven format.fraction format.top format.scale
    (units 23 (bits.toNat % 2 ^ 31)) (stored.toNat % 2 ^ 15)

/-- The value of a single-precision number, in units of its smallest subnormal. -/
def value32 (bits : UInt32) : ℤ :=
  if bits.toNat / 2 ^ 31 = 0 then units 23 (bits.toNat % 2 ^ 31)
  else -units 23 (bits.toNat % 2 ^ 31)

/-- The value of a stored number, in units of the smallest subnormal of its format. -/
def value16 (format : Format) (bits : UInt16) : ℤ :=
  if bits.toNat / 2 ^ 15 = 0 then units format.fraction (bits.toNat % 2 ^ 15)
  else -units format.fraction (bits.toNat % 2 ^ 15)

private theorem div_mod_sign (negative : ℕ) {low n : ℕ} (h : low < 2 ^ n) :
    (2 ^ n * negative + low) / 2 ^ n = negative ∧ (2 ^ n * negative + low) % 2 ^ n = low := by
  rw [Nat.mul_add_div (Nat.two_pow_pos n), Nat.div_eq_of_lt h, Nat.mul_add_mod,
    Nat.mod_eq_of_lt h]
  exact ⟨Nat.add_zero _, rfl⟩

theorem f32ToF16_parts (bits : UInt32) :
    (f32ToF16 bits).toNat / 2 ^ 15 = bits.toNat / 2 ^ 31 ∧
      (f32ToF16 bits).toNat % 2 ^ 15 = stored16 (bits.toNat % 2 ^ 31) := by
  rw [toNat_f32ToF16]
  exact div_mod_sign _ (stored16_lt _)

theorem storedBf16_lt {m : ℕ} (h : m < 2 ^ 31) : storedBf16 m < 2 ^ 15 := by
  rw [storedBf16]
  split_ifs with hnan
  · exact Nat.or_lt_two_pow (by omega) (by decide)
  · have := carried_le m 16 (show m < 0x7f81 * 2 ^ 16 by omega)
    omega

theorem f32ToBf16_parts (bits : UInt32) :
    (f32ToBf16 bits).toNat / 2 ^ 15 = bits.toNat / 2 ^ 31 ∧
      (f32ToBf16 bits).toNat % 2 ^ 15 = storedBf16 (bits.toNat % 2 ^ 31) := by
  rw [toNat_f32ToBf16]
  exact div_mod_sign _ (storedBf16_lt (Nat.mod_lt _ (by decide)))

theorem stores_f32ToF16_iff (bits : UInt32) : Stores binary16 bits (f32ToF16 bits) ↔
    ¬ (102 * 2 ^ 23 < bits.toNat % 2 ^ 31 ∧ bits.toNat % 2 ^ 31 < 103 * 2 ^ 23) := by
  obtain ⟨hsign, hlow⟩ := f32ToF16_parts bits
  have hnan := isNan_iff bits
  have hiff (h : ¬ isNan bits) :=
    nearest_stored16_iff (m := bits.toNat % 2 ^ 31) (Nat.not_lt.mp (mt hnan.mpr h))
  constructor
  · intro h hflush
    have hnumber : ¬ isNan bits := fun hnan' => by
      have := hnan.mp hnan'
      omega
    have hnearest := h.nearest hnumber
    rw [hlow] at hnearest
    exact (hiff hnumber).mp hnearest hflush
  · intro hflush
    refine ⟨hsign, fun h => ?_, fun h => ?_⟩
    · rw [hlow, stored16, if_pos (hnan.mp h)]
      decide
    · rw [hlow]
      exact (hiff h).mpr hflush

theorem stores_f32ToBf16_iff (bits : UInt32) : Stores bfloat16 bits (f32ToBf16 bits) ↔
    isNan bits ∨ bits.toNat % 2 ^ 31 < 0x7f7f8000 := by
  obtain ⟨hsign, hlow⟩ := f32ToBf16_parts bits
  have hnan := isNan_iff bits
  have hiff (h : ¬ isNan bits) :=
    nearest_storedBf16_iff (m := bits.toNat % 2 ^ 31) (Nat.not_lt.mp (mt hnan.mpr h))
  constructor
  · intro h
    by_cases hnumber : isNan bits
    · exact .inl hnumber
    · have hnearest := h.nearest hnumber
      rw [hlow] at hnearest
      exact .inr ((hiff hnumber).mp hnearest)
  · intro h
    refine ⟨hsign, fun hnumber => ?_, fun hnumber => ?_⟩
    · -- the bit that is set keeps the fraction of a NaN from being cut to zero
      have hover := hnan.mp hnumber
      have htop : 0x7f80 ≤ bits.toNat % 2 ^ 31 / 2 ^ 16 := by omega
      rw [hlow, storedBf16, if_pos hover]
      refine Nat.lt_of_le_of_ne (Nat.le_trans htop Nat.left_le_or) fun heq => ?_
      have hbit : (bits.toNat % 2 ^ 31 / 2 ^ 16 ||| 0x40).testBit 6 = true := by
        rw [Nat.testBit_or]
        exact Bool.or_true _
      rw [← heq] at hbit
      exact absurd hbit (by decide)
    · rw [hlow]
      exact (hiff hnumber).mpr (h.resolve_left hnumber)

/-! ### Monotonicity -/

theorem stored16_mono {m m' : ℕ} (hle : m ≤ m') (h : m' ≤ 0x7f800000) :
    stored16 m ≤ stored16 m' := by
  have hflushed {m : ℕ} (h : m / 2 ^ 23 < 103) : stored16 m = 0 := by
    rw [stored16, if_neg (by omega), if_neg (by omega), if_pos h]
  by_cases hlow : m / 2 ^ 23 < 103
  · rw [hflushed hlow]
    exact Nat.zero_le _
  · have hnearest := (nearest_stored16_iff (hle.trans h)).mpr (by omega)
    have hnearest' := (nearest_stored16_iff h).mpr (by omega)
    exact hnearest.le (Nat.two_pow_pos 125) hnearest' ((units_strictMono 23).monotone hle)

theorem storedBf16_mono {m m' : ℕ} (hle : m ≤ m') (h : m' ≤ 0x7f800000) :
    storedBf16 m ≤ storedBf16 m' := by
  rw [storedBf16, storedBf16, if_neg (by omega), if_neg (by omega), carried, carried]
  split_ifs <;> omega

/-- A conversion that keeps the sign and grows with the magnitude grows with the value. -/
theorem value16_mono {format : Format} {store : UInt32 → UInt16} {stored : ℕ → ℕ}
    (hparts : ∀ bits, (store bits).toNat / 2 ^ 15 = bits.toNat / 2 ^ 31 ∧
      (store bits).toNat % 2 ^ 15 = stored (bits.toNat % 2 ^ 31))
    (hmono : ∀ {m m' : ℕ}, m ≤ m' → m' ≤ 0x7f800000 → stored m ≤ stored m') (hzero : stored 0 = 0)
    {a b : UInt32} (ha : ¬ isNan a) (hb : ¬ isNan b) (h : value32 a ≤ value32 b) :
    value16 format (store a) ≤ value16 format (store b) := by
  rw [isNan_iff, Nat.not_lt] at ha hb
  obtain ⟨hsign, hlow⟩ := hparts a
  obtain ⟨hsign', hlow'⟩ := hparts b
  rw [value16, value16, hsign, hsign', hlow, hlow']
  rw [value32, value32] at h
  have hstored {m m' : ℕ} (hle : units 23 m ≤ units 23 m') (hm : m' ≤ 0x7f800000) :
      units format.fraction (stored m) ≤ units format.fraction (stored m') :=
    (units_strictMono _).monotone (hmono ((units_strictMono 23).le_iff_le.mp hle) hm)
  split_ifs at h ⊢
  · exact Int.ofNat_le.mpr (hstored (Int.ofNat_le.mp h) hb)
  · -- a positive number is not over a negative one unless both are zero
    have hnone : units 23 0 = 0 := units_subnormal (Nat.two_pow_pos 23)
    have hnone' : units format.fraction 0 = 0 := units_subnormal (Nat.two_pow_pos _)
    have hfirst := @hstored (a.toNat % 2 ^ 31) 0 (by omega) (Nat.zero_le _)
    have hsecond := @hstored (b.toNat % 2 ^ 31) 0 (by omega) (Nat.zero_le _)
    rw [hzero, hnone'] at hfirst hsecond
    omega
  · omega
  · have := hstored (Int.ofNat_le.mp (Int.neg_le_neg_iff.mp h)) ha
    omega

/-! ### Storing again -/

theorem stored16_range (m : ℕ) : stored16 m ≤ 0x7bff ∨ stored16 m = 0x7e00 := by
  by_cases hnan : 0x7f800000 < m
  · rw [stored16, if_pos hnan]
    exact .inr rfl
  · by_cases hflush : 102 * 2 ^ 23 < m ∧ m < 103 * 2 ^ 23
    · rw [stored16, if_neg hnan, if_neg (by omega), if_pos (by omega)]
      exact .inl (Nat.zero_le _)
    · exact .inl ((nearest_stored16_iff (Nat.not_lt.mp hnan)).mpr hflush).1

theorem f32ToF16_again (bits : UInt32) :
    f32ToF16 (f16ToF32 (f32ToF16 bits)) = f32ToF16 bits := by
  obtain ⟨hsign, hlow⟩ := f32ToF16_parts bits
  obtain ⟨hsign', hlow'⟩ := div_mod_sign (bits.toNat / 2 ^ 31)
    (wide16_lt (stored16_lt (bits.toNat % 2 ^ 31)))
  have hagain : stored16 (wide16 (stored16 (bits.toNat % 2 ^ 31))) =
      stored16 (bits.toNat % 2 ^ 31) := by
    rcases stored16_range (bits.toNat % 2 ^ 31) with h | h
    · exact stored16_wide16 h
    · rw [h]
      decide +kernel
  rw [← UInt16.toNat_inj, toNat_f32ToF16, toNat_f16ToF32, hsign, hlow, hsign', hlow', hagain,
    toNat_f32ToF16]

theorem f32ToBf16_again (bits : UInt32) :
    f32ToBf16 (bf16ToF32 (f32ToBf16 bits)) = f32ToBf16 bits := by
  obtain ⟨m, hm⟩ : ∃ m, bits.toNat % 2 ^ 31 = m := ⟨_, rfl⟩
  have hmlt : m < 2 ^ 31 := hm ▸ Nat.mod_lt _ (by decide)
  have hstored := toNat_f32ToBf16 bits
  have hlt := storedBf16_lt hmlt
  rw [hm] at hstored
  have hagain : storedBf16 (storedBf16 m * 2 ^ 16) = storedBf16 m := by
    by_cases hnan : 0x7f800000 < m
    · -- the bit that marks a NaN is set already
      have htop : 0x7f81 ≤ storedBf16 m := by
        have hstores := ((stores_f32ToBf16_iff bits).mpr
          (.inl ((isNan_iff bits).mpr (hm ▸ hnan)))).nan ((isNan_iff bits).mpr (hm ▸ hnan))
        rw [(f32ToBf16_parts bits).2, hm] at hstores
        exact hstores
      have hmarked : storedBf16 m ||| 0x40 = storedBf16 m := by
        rw [storedBf16, if_pos hnan, Nat.or_assoc, Nat.or_self]
      have hcut : storedBf16 m * 2 ^ 16 / 2 ^ 16 = storedBf16 m := Nat.mul_div_cancel _ (by decide)
      conv_lhs => rw [storedBf16, if_pos (by omega), hcut, hmarked]
    · have hle : storedBf16 m ≤ 0x7f80 := by
        rw [storedBf16, if_neg hnan, carried]
        split_ifs <;> omega
      conv_lhs => rw [storedBf16, if_neg (by omega), carried]
      split_ifs <;> omega
  have hback : (bf16ToF32 (f32ToBf16 bits)).toNat =
      2 ^ 31 * (bits.toNat / 2 ^ 31) + storedBf16 m * 2 ^ 16 := by
    rw [toNat_bf16ToF32, hstored]
    ring
  obtain ⟨hsign', hlow'⟩ := div_mod_sign (bits.toNat / 2 ^ 31)
    (show storedBf16 m * 2 ^ 16 < 2 ^ 31 by omega)
  rw [← UInt16.toNat_inj, toNat_f32ToBf16, hback, hsign', hlow', hagain, hstored]

/-- **Narrow storage.** Both conversions store the nearest number, ties to even, saturating and
keeping NaN, exactly where the value is not between half the smallest binary16 subnormal and that
subnormal, and is a NaN or under the midpoint after the largest finite bfloat16 number. For every
value the addition of the second stays in its word, both conversions are monotone, and what is read
back from the store is stored as the same bits. -/
theorem features_narrow (bits : UInt32) :
    ((Stores binary16 bits (f32ToF16 bits) ∧ Stores bfloat16 bits (f32ToBf16 bits)) ↔
      ¬ (102 * 2 ^ 23 < bits.toNat % 2 ^ 31 ∧ bits.toNat % 2 ^ 31 < 103 * 2 ^ 23) ∧
        (isNan bits ∨ bits.toNat % 2 ^ 31 < 0x7f7f8000)) ∧
    (¬ isNan bits → (bits + (0x7fff : UInt32) + ((bits >>> 16) &&& 1)).toNat =
      bits.toNat + 0x7fff + bits.toNat / 2 ^ 16 % 2) ∧
    (∀ other, ¬ isNan bits → ¬ isNan other → value32 bits ≤ value32 other →
      value16 binary16 (f32ToF16 bits) ≤ value16 binary16 (f32ToF16 other) ∧
        value16 bfloat16 (f32ToBf16 bits) ≤ value16 bfloat16 (f32ToBf16 other)) ∧
    f32ToF16 (f16ToF32 (f32ToF16 bits)) = f32ToF16 bits ∧
    f32ToBf16 (bf16ToF32 (f32ToBf16 bits)) = f32ToBf16 bits := by
  refine ⟨and_congr (stores_f32ToF16_iff bits) (stores_f32ToBf16_iff bits),
    toNat_f32ToBf16_add, fun other h h' hle => ⟨?_, ?_⟩, f32ToF16_again bits,
    f32ToBf16_again bits⟩
  · exact value16_mono f32ToF16_parts stored16_mono (by decide) h h' hle
  · exact value16_mono f32ToBf16_parts storedBf16_mono (by decide) h h' hle

/-- Three quarters of the smallest binary16 subnormal is stored as zero, and the largest finite
single-precision number as the bfloat16 infinity. -/
theorem features_narrow_fails :
    f32ToF16 0x33400000 = 0 ∧ ¬ Stores binary16 0x33400000 (f32ToF16 0x33400000) ∧
      f32ToBf16 0x7f7fffff = 0x7f80 ∧ ¬ Stores bfloat16 0x7f7fffff (f32ToBf16 0x7f7fffff) := by
  refine ⟨by decide, ?_, by decide, ?_⟩
  · rw [stores_f32ToF16_iff]
    decide
  · rw [stores_f32ToBf16_iff]
    decide

end Retrograd.Training.Features
