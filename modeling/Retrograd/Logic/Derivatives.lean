import Mathlib

/-!
# Slopes of the functions objectives are made of

The **softplus** `log (1 + exp x)` has the sigmoid for its slope, the **log odds** of `exp l` the
inverse of `1 - exp l`, a sum has the **sum of the slopes** of its terms, and a function that reads its argument only up to a bound is flat past the
bound and, where it is differentiable at the bound itself, has there the slope it has below.
-/

namespace Retrograd.Logic

open Real Set Filter Topology

/-! ### Softplus and sigmoid -/

/-- Softplus evaluated without overflow. -/
theorem max_add_log_one_add_exp (x : ℝ) :
    max x 0 + log (1 + exp (-|x|)) = log (1 + exp x) := by
  rcases le_total 0 x with hx | hx
  · have hsplit : 1 + exp x = exp x * (1 + exp (-x)) := by
      rw [mul_add, ← exp_add, add_neg_cancel, exp_zero, mul_one, add_comm]
    have hpos : (1 + exp (-x)) ≠ 0 := (by positivity : (0 : ℝ) < 1 + exp (-x)).ne'
    rw [max_eq_left hx, abs_of_nonneg hx, hsplit, log_mul (exp_ne_zero x) hpos, log_exp]
  · rw [max_eq_right hx, abs_of_nonpos hx, neg_neg, zero_add]

/-- The sigmoid evaluated on the side of the negative numbers. -/
theorem exp_div_one_add_exp (x : ℝ) : exp x / (1 + exp x) = sigmoid x := by
  have hexp : exp x * exp (-x) = 1 := by rw [← exp_add, add_neg_cancel, exp_zero]
  have hpos : (0 : ℝ) < 1 + exp x := by positivity
  have hpos' : (0 : ℝ) < 1 + exp (-x) := by positivity
  rw [sigmoid_def, ← one_div, div_eq_div_iff hpos.ne' hpos'.ne']
  linear_combination hexp

theorem hasDerivAt_softplus (x : ℝ) :
    HasDerivAt (fun x => log (1 + exp x)) (sigmoid x) x := by
  have hpos : (0 : ℝ) < 1 + exp x := by positivity
  have hlog := ((hasDerivAt_exp x).const_add 1).log hpos.ne'
  rwa [exp_div_one_add_exp] at hlog

theorem hasDerivAt_softplus_neg (x : ℝ) :
    HasDerivAt (fun x => log (1 + exp (-x))) (-sigmoid (-x)) x := by
  have h := (hasDerivAt_softplus (-x)).comp x (hasDerivAt_neg x)
  rwa [mul_neg_one] at h

/-! ### Log odds -/

/-- The slope of `log (p / (1 - p))` in the log-probability `l` of `p`. -/
theorem hasDerivAt_logOdds {l : ℝ} (hl : l < 0) :
    HasDerivAt (fun l => l - log (1 - exp l)) (1 / (1 - exp l)) l := by
  have hpos : 0 < 1 - exp l := sub_pos.mpr (exp_lt_one_iff.mpr hl)
  have hlog := ((hasDerivAt_exp l).const_sub 1).log hpos.ne'
  have hsub := (hasDerivAt_id l).sub hlog
  have hslope : 1 - -exp l / (1 - exp l) = 1 / (1 - exp l) := by
    field_simp
    ring
  rw [← hslope]
  exact hsub

/-! ### Functions of a bounded argument -/

/-- Where a function is differentiable, its slope is the one it has from the left. -/
theorem hasDerivAt_of_Iic {f : ℝ → ℝ} {slope x : ℝ} (hdiff : DifferentiableAt ℝ f x)
    (hleft : HasDerivWithinAt f slope (Iic x) x) : HasDerivAt f slope x := by
  have heq : deriv f x = slope :=
    (uniqueDiffWithinAt_Iic x).eq_deriv _ hdiff.hasDerivAt.hasDerivWithinAt hleft
  exact heq ▸ hdiff.hasDerivAt

/-- The slope of a function that reads its argument up to `bound`: flat past it. -/
theorem hasDerivAt_min {g : ℝ → ℝ} {slope bound x : ℝ} (hg : HasDerivAt g slope (min x bound))
    (hx : x ≠ bound ∨ DifferentiableAt ℝ (fun y => g (min y bound)) x) :
    HasDerivAt (fun y => g (min y bound)) (if bound < x then 0 else slope) x := by
  rcases lt_trichotomy x bound with hlt | heq | hgt
  · rw [if_neg hlt.not_gt]
    rw [min_eq_left hlt.le] at hg
    refine hg.congr_of_eventuallyEq ?_
    filter_upwards [Iio_mem_nhds hlt] with y hy
    rw [min_eq_left (le_of_lt hy)]
  · subst heq
    rw [if_neg (lt_irrefl x)]
    rw [min_self] at hg
    refine hasDerivAt_of_Iic (hx.resolve_left (fun h => h rfl)) ?_
    refine hg.hasDerivWithinAt.congr (fun y hy => ?_) (by rw [min_self])
    rw [min_eq_left hy]
  · rw [if_pos hgt]
    refine (hasDerivAt_const x (g bound)).congr_of_eventuallyEq ?_
    filter_upwards [Ioi_mem_nhds hgt] with y hy
    rw [min_eq_right (le_of_lt hy)]

/-- The slope in a sum of a function of its mean. -/
theorem hasDerivAt_mean {f : ℝ → ℝ} {slope s n : ℝ} (hf : HasDerivAt f slope (s / n)) :
    HasDerivAt (fun s => f (s / n)) (slope / n) s := by
  have h := hf.comp s ((hasDerivAt_id s).div_const n)
  rwa [mul_one_div] at h

/-- A function of a mean is differentiable in the mean where it is in the sum. -/
theorem differentiableAt_of_mean {f : ℝ → ℝ} {s n : ℝ} (hn : n ≠ 0)
    (h : DifferentiableAt ℝ (fun s => f (s / n)) s) : DifferentiableAt ℝ f (s / n) := by
  have hscale : DifferentiableAt ℝ (fun l => l * n) (s / n) := differentiableAt_id.mul_const n
  have hat : DifferentiableAt ℝ (fun s => f (s / n)) (s / n * n) := by
    rwa [div_mul_cancel₀ s hn]
  have hcomp := hat.comp (s / n) hscale
  refine hcomp.congr_of_eventuallyEq (Eventually.of_forall fun l => ?_)
  simp [hn]

/-- The slope of a sum is the sum of the slopes of its terms. -/
theorem hasDerivAt_list_sum {α : Type*} {f : α → ℝ → ℝ} {slope : α → ℝ} {x : ℝ} {l : List α}
    (h : ∀ a ∈ l, HasDerivAt (f a) (slope a) x) :
    HasDerivAt (fun y => (l.map fun a => f a y).sum) (l.map slope).sum x := by
  induction l with
  | nil => simpa using hasDerivAt_const x (0 : ℝ)
  | cons a l ih =>
    simp only [List.map_cons, List.sum_cons]
    exact (h a (.head _)).add (ih fun b hb => h b (.tail _ hb))

/-! ### Functions of two sums -/

/-- A differentiable function of two numbers is differentiable in each. -/
theorem differentiableAt_partials {f : ℝ → ℝ → ℝ} {s t : ℝ}
    (h : DifferentiableAt ℝ (fun sums : ℝ × ℝ => f sums.1 sums.2) (s, t)) :
    DifferentiableAt ℝ (fun sum => f sum t) s ∧ DifferentiableAt ℝ (fun sum => f s sum) t := by
  have hfst : DifferentiableAt ℝ (fun sum : ℝ => (sum, t)) s :=
    differentiableAt_id.prodMk (differentiableAt_const t)
  have hsnd : DifferentiableAt ℝ (fun sum : ℝ => (s, sum)) t :=
    (differentiableAt_const s).prodMk differentiableAt_id
  exact ⟨DifferentiableAt.comp (f := fun sum => (sum, t)) s h hfst,
    DifferentiableAt.comp (f := fun sum => (s, sum)) t h hsnd⟩

/-- Where a function of two numbers is differentiable, its derivative is read off its partial
slopes. -/
theorem hasFDerivAt_of_partials {f : ℝ → ℝ → ℝ} {s t p q : ℝ}
    (h : DifferentiableAt ℝ (fun sums : ℝ × ℝ => f sums.1 sums.2) (s, t))
    (hs : HasDerivAt (fun sum => f sum t) p s) (ht : HasDerivAt (fun sum => f s sum) q t) :
    HasFDerivAt (fun sums : ℝ × ℝ => f sums.1 sums.2)
      (p • ContinuousLinearMap.fst ℝ ℝ ℝ + q • ContinuousLinearMap.snd ℝ ℝ ℝ) (s, t) := by
  have hfull := h.hasFDerivAt
  have hfst : HasDerivAt (fun sum => (sum, t)) ((1 : ℝ), (0 : ℝ)) s :=
    (hasDerivAt_id' s).prodMk (hasDerivAt_const s t)
  have hsnd : HasDerivAt (fun sum => (s, sum)) ((0 : ℝ), (1 : ℝ)) t :=
    (hasDerivAt_const t s).prodMk (hasDerivAt_id' t)
  have hcomp : HasDerivAt (fun sum => f sum t)
      (fderiv ℝ (fun sums : ℝ × ℝ => f sums.1 sums.2) (s, t) (1, 0)) s :=
    HasFDerivAt.comp_hasDerivAt (f := fun sum => (sum, t)) s hfull hfst
  have hcomp' : HasDerivAt (fun sum => f s sum)
      (fderiv ℝ (fun sums : ℝ × ℝ => f sums.1 sums.2) (s, t) (0, 1)) t :=
    HasFDerivAt.comp_hasDerivAt (f := fun sum => (s, sum)) t hfull hsnd
  have hp := hcomp.unique hs
  have hq := hcomp'.unique ht
  have heq : fderiv ℝ (fun sums : ℝ × ℝ => f sums.1 sums.2) (s, t) =
      p • ContinuousLinearMap.fst ℝ ℝ ℝ + q • ContinuousLinearMap.snd ℝ ℝ ℝ := by
    ext
    · simp [hp]
    · simp [hq]
  exact heq ▸ hfull

end Retrograd.Logic
