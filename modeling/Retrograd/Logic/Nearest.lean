import Mathlib.Data.Nat.Dist
import Mathlib.Tactic.Ring

/-!
# Nearest values of a binary format

A magnitude of a binary format with `f` fraction bits is read as a number, and its value is a whole
number of **units**, the smallest subnormal of the format. The next magnitude is one step further,
and the steps double from binade to binade.

A value given in finer units, `scale` of them to a unit, is stored at the magnitude nearest to it
among those up to the largest finite one, **ties to the even magnitude**. Cutting a significand and
carrying by the remainder finds that magnitude; so found, it grows with the value.
-/

namespace Retrograd.Logic

variable {f m top scale value value' r r' : ℕ}

/-- The value of a magnitude in units of the smallest subnormal. -/
def units (f m : ℕ) : ℕ :=
  if m / 2 ^ f = 0 then m % 2 ^ f else (2 ^ f + m % 2 ^ f) * 2 ^ (m / 2 ^ f - 1)

/-- The distance from a magnitude to the next. -/
def unitStep (f m : ℕ) : ℕ := 2 ^ (m / 2 ^ f - 1)

theorem unitStep_pos (f m : ℕ) : 0 < unitStep f m := Nat.two_pow_pos _

/-- A magnitude by its exponent and its fraction. -/
theorem units_mk {exponent fraction : ℕ} (h : fraction < 2 ^ f) (hpos : 0 < exponent) :
    units f (exponent * 2 ^ f + fraction) = (2 ^ f + fraction) * 2 ^ (exponent - 1) := by
  have hdiv : (exponent * 2 ^ f + fraction) / 2 ^ f = exponent := by
    rw [Nat.mul_comm, Nat.mul_add_div (Nat.two_pow_pos f), Nat.div_eq_of_lt h, Nat.add_zero]
  have hmod : (exponent * 2 ^ f + fraction) % 2 ^ f = fraction := by
    rw [Nat.mul_comm, Nat.mul_add_mod, Nat.mod_eq_of_lt h]
  rw [units, hdiv, hmod, if_neg hpos.ne']

/-- A subnormal is as many units as its fraction. -/
theorem units_subnormal (h : m < 2 ^ f) : units f m = m := by
  rw [units, Nat.div_eq_of_lt h, if_pos rfl, Nat.mod_eq_of_lt h]

theorem units_succ (f m : ℕ) : units f (m + 1) = units f m + unitStep f m := by
  obtain ⟨exponent, fraction, hlt, rfl⟩ : ∃ exponent fraction, fraction < 2 ^ f ∧
      m = exponent * 2 ^ f + fraction :=
    ⟨m / 2 ^ f, m % 2 ^ f, Nat.mod_lt _ (Nat.two_pow_pos f), (Nat.div_add_mod' _ _).symm⟩
  have hdiv : (exponent * 2 ^ f + fraction) / 2 ^ f = exponent := by
    rw [Nat.mul_comm, Nat.mul_add_div (Nat.two_pow_pos f), Nat.div_eq_of_lt hlt, Nat.add_zero]
  rw [unitStep, hdiv]
  rcases Nat.eq_zero_or_pos exponent with rfl | hpos
  · rw [Nat.zero_mul, Nat.zero_add, units_subnormal hlt]
    rcases Nat.lt_or_eq_of_le (Nat.succ_le_of_lt hlt) with hnext | hnext
    · exact units_subnormal hnext
    · -- the first normal magnitude
      have := @units_mk f 1 0 (Nat.two_pow_pos f) Nat.one_pos
      rw [Nat.one_mul, Nat.add_zero, Nat.sub_self, Nat.pow_zero, Nat.mul_one] at this
      rw [Nat.succ_eq_add_one] at hnext
      rw [hnext, this, ← hnext]
      rfl
  · obtain ⟨exponent, rfl⟩ : ∃ before, exponent = before + 1 :=
      ⟨exponent - 1, (Nat.sub_add_cancel hpos).symm⟩
    rw [units_mk hlt hpos, Nat.add_sub_cancel]
    rcases Nat.lt_or_eq_of_le (Nat.succ_le_of_lt hlt) with hnext | hnext
    · rw [Nat.add_assoc, units_mk hnext hpos, Nat.add_sub_cancel, Nat.succ_eq_add_one]
      ring
    · -- the fraction carries into the exponent
      have hcarry : (exponent + 1) * 2 ^ f + fraction + 1 = (exponent + 2) * 2 ^ f + 0 := by
        rw [Nat.add_assoc, ← Nat.succ_eq_add_one fraction, hnext]
        ring
      rw [hcarry, units_mk (Nat.two_pow_pos f) (by omega)]
      calc (2 ^ f + 0) * 2 ^ (exponent + 2 - 1) = (2 ^ f + 2 ^ f) * 2 ^ exponent := by
            rw [show exponent + 2 - 1 = exponent + 1 from rfl, Nat.pow_succ]
            ring
        _ = (2 ^ f + (fraction + 1)) * 2 ^ exponent := by rw [← Nat.succ_eq_add_one, hnext]
        _ = (2 ^ f + fraction) * 2 ^ exponent + 2 ^ exponent := by ring

theorem units_strictMono (f : ℕ) : StrictMono (units f) :=
  strictMono_nat_of_lt_succ fun m => by
    rw [units_succ]
    exact Nat.lt_add_of_pos_right (unitStep_pos f m)

/-! ### Nearest magnitudes -/

/-- The magnitude nearest to a value among those up to `top`, ties to the even one. -/
def NearestEven (f top scale value r : ℕ) : Prop :=
  r ≤ top ∧ ∀ other ≤ top, other ≠ r →
    Nat.dist value (units f r * scale) < Nat.dist value (units f other * scale) ∨
      Nat.dist value (units f r * scale) = Nat.dist value (units f other * scale) ∧ r % 2 = 0

/-- The magnitude between whose midpoints a value lies is nearest to it. -/
theorem nearestEven_of_between (hscale : 0 < scale) (htop : r ≤ top)
    (hbelow : 0 < r → (units f (r - 1) + units f r) * scale ≤ 2 * value ∧
      ((units f (r - 1) + units f r) * scale = 2 * value → r % 2 = 0))
    (habove : r < top → 2 * value ≤ (units f r + units f (r + 1)) * scale ∧
      (2 * value = (units f r + units f (r + 1)) * scale → r % 2 = 0)) :
    NearestEven f top scale value r := by
  refine ⟨htop, fun other hother hne => ?_⟩
  have hscaled {a b : ℕ} (h : a < b) : units f a * scale < units f b * scale :=
    Nat.mul_lt_mul_of_pos_right (units_strictMono f h) hscale
  have hscaled' {a b : ℕ} (h : a ≤ b) : units f a * scale ≤ units f b * scale :=
    Nat.mul_le_mul_right scale ((units_strictMono f).monotone h)
  rw [Nat.dist, Nat.dist]
  rcases Nat.lt_or_gt_of_ne hne with hlt | hgt
  · obtain ⟨hle, htie⟩ := hbelow (Nat.lt_of_le_of_lt (Nat.zero_le _) hlt)
    have hbefore := hscaled' (Nat.le_sub_one_of_lt hlt)
    have hself := hscaled hlt
    rw [Nat.add_mul] at hle htie
    by_cases heq : units f (r - 1) * scale + units f r * scale = 2 * value
    · rcases Nat.lt_or_eq_of_le (Nat.le_sub_one_of_lt hlt) with hother' | hother'
      · have := hscaled hother'
        exact .inl (by omega)
      · rw [hother']
        exact .inr ⟨by omega, htie heq⟩
    · exact .inl (by omega)
  · obtain ⟨hle, htie⟩ := habove (Nat.lt_of_lt_of_le hgt hother)
    have hafter := hscaled' (Nat.succ_le_of_lt hgt)
    have hself := hscaled hgt
    rw [Nat.add_mul] at hle htie
    rw [Nat.succ_eq_add_one] at hafter
    by_cases heq : 2 * value = units f r * scale + units f (r + 1) * scale
    · rcases Nat.lt_or_eq_of_le (Nat.succ_le_of_lt hgt) with hother' | hother'
      · have := hscaled hother'
        rw [Nat.succ_eq_add_one] at this
        exact .inl (by omega)
      · rw [← hother', Nat.succ_eq_add_one]
        exact .inr ⟨by omega, htie heq⟩
    · exact .inl (by omega)

/-- **Cutting and carrying is rounding to nearest even.** A value is a magnitude and a remainder of
the step to the next; the magnitude is carried when the remainder is over a half, or is a half and
the magnitude is odd. -/
theorem nearestEven_carry {cut rem half grain : ℕ} (hgrain : 0 < grain) (hscale : 0 < scale)
    (hvalue : value = units f cut * scale + rem * grain)
    (hstep : unitStep f cut * scale = 2 * half * grain) (hrem : rem < 2 * half)
    (htop : (if half < rem ∨ rem = half ∧ cut % 2 = 1 then cut + 1 else cut) ≤ top) :
    NearestEven f top scale value
      (if half < rem ∨ rem = half ∧ cut % 2 = 1 then cut + 1 else cut) := by
  have hnext : units f (cut + 1) * scale = units f cut * scale + 2 * half * grain := by
    rw [units_succ, Nat.add_mul, hstep]
  have hmono {a b : ℕ} (h : a < b) : units f a * scale < units f b * scale :=
    Nat.mul_lt_mul_of_pos_right (units_strictMono f h) hscale
  have hgrained {a b : ℕ} (h : a < b) : a * grain < b * grain :=
    Nat.mul_lt_mul_of_pos_right h hgrain
  have hlt := hgrained hrem
  rw [Nat.mul_assoc] at hnext hlt
  split_ifs at htop ⊢ with hcarry
  · refine nearestEven_of_between hscale htop (fun _ => ?_) fun _ => ?_
    · rw [Nat.add_sub_cancel, Nat.add_mul, hnext, hvalue]
      rcases hcarry with hover | ⟨rfl, hodd⟩
      · have := hgrained hover
        exact ⟨by omega, fun h => by omega⟩
      · exact ⟨by omega, fun _ => by omega⟩
    · have := hmono (Nat.lt_succ_self (cut + 1))
      rw [Nat.succ_eq_add_one] at this
      rw [Nat.add_mul, hvalue]
      exact ⟨by omega, fun h => by omega⟩
  · rw [not_or, not_and, Nat.not_lt] at hcarry
    refine nearestEven_of_between hscale htop (fun hpos => ?_) fun _ => ?_
    · have := hmono (Nat.sub_lt hpos Nat.one_pos)
      rw [Nat.add_mul, hvalue]
      exact ⟨by omega, fun h => by omega⟩
    · rw [Nat.add_mul, hnext, hvalue]
      rcases Nat.lt_or_eq_of_le hcarry.1 with hunder | rfl
      · have := hgrained hunder
        exact ⟨by omega, fun h => by omega⟩
      · exact ⟨by omega, fun _ => by have := hcarry.2 rfl; omega⟩

/-- A value over the largest magnitude is stored at it. -/
theorem nearestEven_top (hscale : 0 < scale) (h : units f top * scale ≤ value) :
    NearestEven f top scale value top := by
  refine nearestEven_of_between hscale (Nat.le_refl _) (fun hpos => ?_)
    fun hlt => absurd hlt (Nat.lt_irrefl _)
  have := Nat.mul_lt_mul_of_pos_right (units_strictMono f (Nat.sub_lt hpos Nat.one_pos)) hscale
  rw [Nat.add_mul]
  exact ⟨by omega, fun h => by omega⟩

/-- **The nearest magnitude grows with the value.** -/
theorem NearestEven.le (hscale : 0 < scale) (h : NearestEven f top scale value r)
    (h' : NearestEven f top scale value' r') (hle : value ≤ value') : r ≤ r' := by
  by_contra hlt
  rw [Nat.not_le] at hlt
  have hmono {a b : ℕ} (h : a < b) : units f a * scale < units f b * scale :=
    Nat.mul_lt_mul_of_pos_right (units_strictMono f h) hscale
  have hself := hmono hlt
  -- the two values lie on the midpoint, so the magnitudes are even and there is one between them
  obtain ⟨hmiddle, heven⟩ : 2 * value = units f r * scale + units f r' * scale ∧
      r % 2 = 0 ∧ r' % 2 = 0 := by
    have hfirst := h.2 r' h'.1 hlt.ne
    have hsecond := h'.2 r h.1 hlt.ne'
    rw [Nat.dist, Nat.dist] at hfirst hsecond
    omega
  have hbetween : r' + 1 < r := by omega
  have h₁ := hmono (Nat.lt_succ_self r')
  have h₂ := hmono hbetween
  rw [Nat.succ_eq_add_one] at h₁
  have hnear := h.2 (r' + 1) (by have := h.1; omega) (by omega)
  rw [Nat.dist, Nat.dist] at hnear
  omega

theorem NearestEven.unique (hscale : 0 < scale) (h : NearestEven f top scale value r)
    (h' : NearestEven f top scale value r') : r = r' :=
  Nat.le_antisymm (h.le hscale h' (Nat.le_refl _)) (h'.le hscale h (Nat.le_refl _))

/-- A value that is one of the format is nearest to itself. -/
theorem nearestEven_self (hscale : 0 < scale) (htop : r ≤ top) :
    NearestEven f top scale (units f r * scale) r := by
  refine ⟨htop, fun other _ hne => .inl ?_⟩
  have hother : units f other * scale ≠ units f r * scale := fun h =>
    hne ((units_strictMono f).injective (Nat.eq_of_mul_eq_mul_right hscale h))
  rw [Nat.dist, Nat.dist]
  omega

end Retrograd.Logic
