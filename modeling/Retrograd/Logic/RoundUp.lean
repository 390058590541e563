import Mathlib.Data.List.Nodup
import Mathlib.Algebra.BigOperators.Group.List.Basic
import Mathlib.Tactic.Ring

/-!
# Division by multiplication, rounding up, and mixed radices

A quotient by `d` is the quotient by a power of two of a product with a multiplier that was rounded
**up**: `round_up_div` says for which arguments nothing is lost, and `split_div` that the multiplier's
top bit may be added instead of multiplied. `digits` reads a number in the mixed radix of a list,
and **every tuple of digits is read exactly once** (`digits_nodup`, `mem_digits`).
-/

namespace Retrograd.Logic

open List

/-! ### The round-up multiplier -/

/-- A multiplier that is `e / d` above `N / d` gives the exact quotient as long as `n * e` stays
below `N`. -/
theorem round_up_div {n d e m N : ℕ} (hd : 0 < d) (hm : m * d = N + e) (hn : n * e < N) :
    n * m / N = n / d := by
  have hN : 0 < N := Nat.zero_lt_of_lt hn
  calc n * m / N
      = n * m * d / (N * d) := (Nat.mul_div_mul_right _ _ hd).symm
    _ = (n * e + n * N) / (N * d) := by rw [Nat.mul_assoc, hm, Nat.mul_add, Nat.add_comm]
    _ = (n * e + n * N) / N / d := (Nat.div_div_eq_div_mul ..).symm
    _ = n / d := by rw [Nat.add_mul_div_right _ _ hN, Nat.div_eq_of_lt hn, Nat.zero_add]

/-- The part of a multiplier above one word is added after the high word is taken. -/
theorem split_div {n m W P : ℕ} (hW : 0 < W) : (n * m / W + n) / P = n * (m + W) / (W * P) := by
  rw [Nat.mul_add, ← Nat.div_div_eq_div_mul, Nat.add_mul_div_right _ _ hW]

/-- The multiplier of a power of two `P` above `d`, without the word it exceeds. -/
def multiplier (W P d : ℕ) : ℕ := W * (P - d) / d + 1

/-- The multiplier is less than `d` above the quotient it stands for. -/
theorem exists_multiplier {W P d : ℕ} (hd : 0 < d) (hP : d ≤ P) :
    ∃ e ≤ d, (multiplier W P d + W) * d = W * P + e := by
  refine ⟨d - W * (P - d) % d, Nat.sub_le .., ?_⟩
  have hdivmod := Nat.div_add_mod (W * (P - d)) d
  have hmod : W * (P - d) % d < d := Nat.mod_lt _ hd
  have hsplit : W * P = W * (P - d) + W * d := by rw [← Nat.mul_add, Nat.sub_add_cancel hP]
  rw [multiplier, Nat.add_mul, Nat.add_mul, Nat.one_mul, Nat.mul_comm (_ / d) d, hsplit]
  omega

/-- With the least power of two the multiplier fits in one word, when `d` does not fill it. -/
theorem multiplier_lt {W P d : ℕ} (hd : 0 < d) (hleast : P < 2 * d) (hW : d < W) :
    multiplier W P d < W := by
  have hgap : P - d ≤ d - 1 := by omega
  have hprod : W * (P - d) < (W - 1) * d := by
    calc W * (P - d) ≤ W * (d - 1) := Nat.mul_le_mul_left W hgap
      _ = W * d - W := by rw [Nat.mul_sub, Nat.mul_one]
      _ < W * d - d := by
        have hle : W ≤ W * d := Nat.le_mul_of_pos_right W hd
        omega
      _ = (W - 1) * d := by rw [Nat.sub_mul, Nat.one_mul]
  have hquot : W * (P - d) / d < W - 1 := (Nat.div_lt_iff_lt_mul hd).mpr hprod
  rw [multiplier]
  omega

/-! ### Quotients rounded up -/

/-- The quotient, with one more for a remainder. -/
def divCeil (n d : ℕ) : ℕ := if 0 < n % d then n / d + 1 else n / d

/-- What is below the dividend lies in one of the parts. -/
theorem div_lt_divCeil {i n : ℕ} (d : ℕ) (h : i < n) (hd : 0 < d) : i / d < divCeil n d := by
  have hdivmod := Nat.div_add_mod n d
  rw [Nat.div_lt_iff_lt_mul hd, divCeil, Nat.mul_comm]
  split_ifs with hrest
  · have hmod := Nat.mod_lt n hd
    rw [Nat.mul_succ]
    omega
  · omega

/-- The last one lies in the last part. -/
theorem pred_div {n : ℕ} (d : ℕ) (hn : 0 < n) (hd : 0 < d) : (n - 1) / d = divCeil n d - 1 := by
  have hdivmod := Nat.div_add_mod n d
  rw [divCeil, Nat.div_eq_iff hd]
  split_ifs with hrest
  · have hmod := Nat.mod_lt n hd
    rw [Nat.add_sub_cancel, Nat.mul_comm]
    omega
  · have hquot : 0 < n / d := Nat.pos_of_ne_zero fun hzero => by
      rw [hzero, Nat.mul_zero] at hdivmod
      omega
    have hprod : d * (n / d) = d * (n / d - 1) + d := by
      rw [← Nat.mul_succ, Nat.succ_eq_add_one, Nat.sub_add_cancel hquot]
    rw [Nat.mul_comm]
    omega

/-! ### Mixed radices -/

/-- The digits of a number, the fastest first; the last one is what is left. -/
def digits : List ℕ → ℕ → List ℕ
  | [], _ => []
  | [_], r => [r]
  | d :: ds, r => r % d :: digits ds (r / d)

theorem digits_cons {d : ℕ} {ds : List ℕ} (hds : ds ≠ []) (r : ℕ) :
    digits (d :: ds) r = r % d :: digits ds (r / d) := by
  cases ds with
  | nil => exact absurd rfl hds
  | cons d' ds => rfl

private theorem div_lt_prod {d : ℕ} {ds : List ℕ} {r : ℕ} (hr : r < (d :: ds).prod) :
    0 < d ∧ r / d < ds.prod := by
  rw [prod_cons] at hr
  have hd : 0 < d := Nat.pos_of_ne_zero fun h => by
    rw [h, Nat.zero_mul] at hr
    exact Nat.not_lt_zero r hr
  exact ⟨hd, (Nat.div_lt_iff_lt_mul hd).mpr (by rwa [Nat.mul_comm])⟩

/-- Digits stay below their radices. -/
theorem digits_lt {ds : List ℕ} {r : ℕ} (hr : r < ds.prod) :
    Forall₂ (· < ·) (digits ds r) ds := by
  induction ds generalizing r with
  | nil => exact .nil
  | cons d ds ih =>
    obtain ⟨hd, hquot⟩ := div_lt_prod hr
    by_cases hds : ds = []
    · subst hds
      refine .cons ?_ .nil
      rwa [prod_cons, prod_nil, Nat.mul_one] at hr
    · rw [digits_cons hds]
      exact .cons (Nat.mod_lt r hd) (ih hquot)

/-- Two numbers with the same digits are the same. -/
theorem digits_inj {ds : List ℕ} {r r' : ℕ} (hr : r < ds.prod) (hr' : r' < ds.prod)
    (h : digits ds r = digits ds r') : r = r' := by
  induction ds generalizing r r' with
  | nil =>
    rw [prod_nil] at hr hr'
    omega
  | cons d ds ih =>
    by_cases hds : ds = []
    · subst hds
      exact (cons.inj h).1
    · rw [digits_cons hds, digits_cons hds] at h
      obtain ⟨hmod, hrest⟩ := cons.inj h
      have hquot := ih (div_lt_prod hr).2 (div_lt_prod hr').2 hrest
      rw [← Nat.div_add_mod r d, ← Nat.div_add_mod r' d, hmod, hquot]

/-- Every tuple below the radices is the digits of a number. -/
theorem exists_digits {ds tuple : List ℕ} (h : Forall₂ (· < ·) tuple ds) :
    ∃ r < ds.prod, digits ds r = tuple := by
  induction h with
  | nil => exact ⟨0, Nat.one_pos, rfl⟩
  | @cons i d tuple ds hi htuple ih =>
    obtain ⟨r, hr, hdigits⟩ := ih
    by_cases hds : ds = []
    · subst hds
      cases htuple
      exact ⟨i, by rwa [prod_cons, prod_nil, Nat.mul_one], rfl⟩
    · have hd : 0 < d := Nat.zero_lt_of_lt hi
      refine ⟨i + d * r, ?_, ?_⟩
      · rw [prod_cons]
        calc i + d * r < d + d * r := Nat.add_lt_add_right hi _
          _ = d * (r + 1) := by ring
          _ ≤ d * ds.prod := Nat.mul_le_mul_left d hr
      · rw [digits_cons hds, Nat.add_mul_mod_self_left, Nat.mod_eq_of_lt hi,
          Nat.add_mul_div_left _ _ hd, Nat.div_eq_of_lt hi, Nat.zero_add, hdigits]

theorem digits_nodup (ds : List ℕ) : ((List.range ds.prod).map (digits ds)).Nodup :=
  Nodup.map_on
    (fun _ hr _ hr' => digits_inj (mem_range.mp hr) (mem_range.mp hr')) nodup_range

theorem mem_digits {ds tuple : List ℕ} :
    tuple ∈ (List.range ds.prod).map (digits ds) ↔ Forall₂ (· < ·) tuple ds := by
  rw [mem_map]
  constructor
  · rintro ⟨r, hr, rfl⟩
    exact digits_lt (mem_range.mp hr)
  · intro h
    obtain ⟨r, hr, hdigits⟩ := exists_digits h
    exact ⟨r, mem_range.mpr hr, hdigits⟩

end Retrograd.Logic
