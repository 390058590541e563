import Retrograd.Training.PreferenceLoss
import Retrograd.Logic.Derivatives

/-!
# Preference coefficients are the gradient of the reported loss

Over the reals every loss is a smooth function of the two summed log-probabilities, except where
ORPO's bound is met exactly. Its two coefficients are minus its **partial slopes**; a chunk divides
them by its number of pairs, so that the weighted cross-entropy over the trained tokens has the
gradient of the chunk's mean loss.
-/

namespace Retrograd.Training.Preference

open Logic

/-! ### The real functions -/

theorem softplus_real (x : ℝ) : softplus x = Real.log (1 + Real.exp x) := by
  rw [← max_add_log_one_add_exp]
  simp only [softplus, Number.max_real, Number.ln1p_real, Number.exp_real, Number.abs_real,
    Number.add_real, Number.neg_real]
  norm_num

theorem sigmoid_real (x : ℝ) : sigmoid x = Real.sigmoid x := by
  unfold sigmoid
  split_ifs with hx
  · rw [Real.sigmoid_def]
    simp only [Number.exp_real, Number.add_real, Number.neg_real]
    norm_num
  · rw [← exp_div_one_add_exp]
    simp only [Number.exp_real, Number.add_real]
    norm_num

theorem logOdds_real (l : ℝ) :
    logOdds l = (l - Real.log (1 - Real.exp l), 1 / (1 - Real.exp l)) := by
  simp only [logOdds, Number.expM1_real, Number.ln_real, Number.sub_real, neg_sub]
  norm_num

/-- The bound on a mean, as a real. -/
noncomputable def meanBound : ℝ := -1e-6

theorem orpoMeanBound_real : orpoMeanBound = meanBound := rfl

theorem meanBound_neg : meanBound < 0 := by norm_num [meanBound]

theorem live_real (bound mean : ℝ) :
    (live (Number.lt bound mean) : ℝ) = if bound < mean then 0 else 1 := by
  by_cases h : bound < mean
  · simp [live, (Number.lt_real bound mean).mpr h, h]
  · have hlt : Number.lt bound mean = false :=
      Bool.eq_false_iff.mpr (mt (Number.lt_real bound mean).mp h)
    simp [live, hlt, h]

theorem mean_real (scores : SideScores ℝ) : scores.mean = scores.sum / scores.tokens := rfl

/-! ### Partial slopes -/

/-- The same response with another sum. -/
def SideScores.withSum {R : Type} (scores : SideScores R) (sum : R) : SideScores R :=
  { scores with sum }

/-- The coefficients of `terms` are minus the slopes of `loss` in the two sums. -/
structure Slopes (loss : ℝ → ℝ → ℝ) (terms : PairTerms ℝ) (s t : ℝ) : Prop where
  chosen : HasDerivAt (fun sum => loss sum t) (-terms.chosenWeight) s
  rejected : HasDerivAt (fun sum => loss s sum) (-terms.rejectedWeight) t

section Margins

variable (beta epsilon gamma : ℝ) (chosen rejected : SideScores ℝ) (a b : ℝ)

theorem dpo_slopes :
    Slopes (fun s t => (dpoTerms beta epsilon (chosen.withSum s) (rejected.withSum t) a b).loss)
      (dpoTerms beta epsilon chosen rejected a b) chosen.sum rejected.sum := by
  have hloss (s t : ℝ) :
      (dpoTerms beta epsilon (chosen.withSum s) (rejected.withSum t) a b).loss =
        (1 - epsilon) * Real.log (1 + Real.exp (-(beta * (s - a) - beta * (t - b)))) +
          epsilon * Real.log (1 + Real.exp (beta * (s - a) - beta * (t - b))) := by
    simp only [dpoTerms, SideScores.withSum, softplus_real, Number.sub_real, Number.mul_real,
      Number.add_real, Number.neg_real]
    norm_num
  -- the slope in the margin; either sum moves the margin by `beta`, one up and one down
  have hmargin (m : ℝ) : HasDerivAt (fun m => (1 - epsilon) * Real.log (1 + Real.exp (-m)) +
      epsilon * Real.log (1 + Real.exp m))
      ((1 - epsilon) * -Real.sigmoid (-m) + epsilon * Real.sigmoid m) m :=
    ((hasDerivAt_softplus_neg m).const_mul _).add ((hasDerivAt_softplus m).const_mul _)
  have hweight : (dpoTerms beta epsilon chosen rejected a b).chosenWeight =
      beta * ((1 - epsilon) * Real.sigmoid
        (-(beta * (chosen.sum - a) - beta * (rejected.sum - b))) -
        epsilon * Real.sigmoid (beta * (chosen.sum - a) - beta * (rejected.sum - b))) := by
    simp only [dpoTerms, sigmoid_real, Number.sub_real, Number.mul_real, Number.neg_real]
    norm_num
  have hopposite : (dpoTerms beta epsilon chosen rejected a b).rejectedWeight =
      -(dpoTerms beta epsilon chosen rejected a b).chosenWeight := rfl
  constructor
  · simp only [hloss]
    have hmoves : HasDerivAt (fun s => beta * (s - a) - beta * (rejected.sum - b)) (beta * 1)
        chosen.sum := (((hasDerivAt_id chosen.sum).sub_const a).const_mul beta).sub_const _
    refine ((hmargin _).comp chosen.sum hmoves).congr_deriv ?_
    rw [hweight]
    ring
  · simp only [hloss]
    have hmoves : HasDerivAt (fun t => beta * (chosen.sum - a) - beta * (t - b)) (-(beta * 1))
        rejected.sum := (((hasDerivAt_id rejected.sum).sub_const b).const_mul beta).const_sub _
    refine ((hmargin _).comp rejected.sum hmoves).congr_deriv ?_
    rw [hopposite, hweight]
    ring

theorem ipo_slopes :
    Slopes (fun s t => (ipoTerms beta (chosen.withSum s) (rejected.withSum t) a b).loss)
      (ipoTerms beta chosen rejected a b) chosen.sum rejected.sum := by
  have hloss (s t : ℝ) : (ipoTerms beta (chosen.withSum s) (rejected.withSum t) a b).loss =
      (s / chosen.tokens - a / chosen.tokens - (t / rejected.tokens - b / rejected.tokens) -
        1 / (2 * beta)) ^ 2 := by
    simp only [ipoTerms, SideScores.withSum, mean_real, SideScores.count, Number.ofNat_real,
      Number.sub_real, Number.mul_real]
    norm_num
    ring
  have hsquare (m : ℝ) : HasDerivAt (fun m : ℝ => m ^ 2) (2 * m) m := by
    simpa using hasDerivAt_pow 2 m
  constructor
  · simp only [hloss]
    have hmoves : HasDerivAt (fun s => s / chosen.tokens - a / chosen.tokens -
        (rejected.sum / rejected.tokens - b / rejected.tokens) - 1 / (2 * beta))
        (1 / chosen.tokens) chosen.sum :=
      ((((hasDerivAt_id chosen.sum).div_const _).sub_const _).sub_const _).sub_const _
    refine ((hsquare _).comp chosen.sum hmoves).congr_deriv ?_
    simp only [ipoTerms, mean_real, SideScores.count, Number.ofNat_real, Number.sub_real,
      Number.mul_real, Number.neg_real]
    norm_num
    ring
  · simp only [hloss]
    have hmoves : HasDerivAt (fun t => chosen.sum / chosen.tokens - a / chosen.tokens -
        (t / rejected.tokens - b / rejected.tokens) - 1 / (2 * beta))
        (-(1 / rejected.tokens)) rejected.sum :=
      ((((hasDerivAt_id rejected.sum).div_const _).sub_const _).const_sub _).sub_const _
    refine ((hsquare _).comp rejected.sum hmoves).congr_deriv ?_
    simp only [ipoTerms, mean_real, SideScores.count, Number.ofNat_real, Number.sub_real,
      Number.mul_real, Number.neg_real]
    norm_num
    ring

theorem simpo_slopes :
    Slopes (fun s t => (simpoTerms beta gamma (chosen.withSum s) (rejected.withSum t)).loss)
      (simpoTerms beta gamma chosen rejected) chosen.sum rejected.sum := by
  have hloss (s t : ℝ) : (simpoTerms beta gamma (chosen.withSum s) (rejected.withSum t)).loss =
      Real.log (1 + Real.exp (-(beta * (s / chosen.tokens - t / rejected.tokens - gamma)))) := by
    simp only [simpoTerms, SideScores.withSum, softplus_real, mean_real, Number.sub_real,
      Number.mul_real, Number.neg_real]
  constructor
  · simp only [hloss]
    have hmoves : HasDerivAt (fun s => beta * (s / chosen.tokens - rejected.sum / rejected.tokens -
        gamma)) (beta * (1 / chosen.tokens)) chosen.sum :=
      ((((hasDerivAt_id chosen.sum).div_const _).sub_const _).sub_const _).const_mul beta
    refine ((hasDerivAt_softplus_neg _).comp chosen.sum hmoves).congr_deriv ?_
    simp only [simpoTerms, sigmoid_real, mean_real, SideScores.count, Number.ofNat_real,
      Number.sub_real, Number.mul_real, Number.neg_real]
    ring
  · simp only [hloss]
    have hmoves : HasDerivAt (fun t => beta * (chosen.sum / chosen.tokens - t / rejected.tokens -
        gamma)) (beta * -(1 / rejected.tokens)) rejected.sum :=
      ((((hasDerivAt_id rejected.sum).div_const _).const_sub _).sub_const _).const_mul beta
    refine ((hasDerivAt_softplus_neg _).comp rejected.sum hmoves).congr_deriv ?_
    simp only [simpoTerms, sigmoid_real, mean_real, SideScores.count, Number.ofNat_real,
      Number.sub_real, Number.mul_real, Number.neg_real]
    ring

/-- The part of ORPO's loss that the chosen mean moves. -/
theorem orpo_chosen_slope (lambda odds : ℝ) {l : ℝ} (hl : l < 0) :
    HasDerivAt (fun l => -l + lambda * Real.log (1 + Real.exp
        (-(l - Real.log (1 - Real.exp l) - odds))))
      (-(1 + lambda * Real.sigmoid (-(l - Real.log (1 - Real.exp l) - odds)) *
        (1 / (1 - Real.exp l)))) l := by
  have hodds := (hasDerivAt_logOdds hl).sub_const odds
  have hpull := ((hasDerivAt_softplus_neg _).comp l hodds).const_mul lambda
  refine ((hasDerivAt_neg l).add hpull).congr_deriv ?_
  ring

/-- The part of ORPO's loss that the rejected mean moves. -/
theorem orpo_rejected_slope (lambda odds fixed : ℝ) {l : ℝ} (hl : l < 0) :
    HasDerivAt (fun l => fixed + lambda * Real.log (1 + Real.exp
        (-(odds - (l - Real.log (1 - Real.exp l))))))
      (lambda * Real.sigmoid (-(odds - (l - Real.log (1 - Real.exp l)))) *
        (1 / (1 - Real.exp l))) l := by
  have hodds := (hasDerivAt_logOdds hl).const_sub odds
  have hpull := ((hasDerivAt_softplus_neg _).comp l hodds).const_mul lambda
  refine (hpull.const_add fixed).congr_deriv ?_
  ring

theorem orpo_loss (lambda s t : ℝ) :
    (orpoTerms lambda (chosen.withSum s) (rejected.withSum t)).loss =
      -min (s / chosen.tokens) meanBound + lambda * Real.log (1 + Real.exp
        (-(min (s / chosen.tokens) meanBound -
            Real.log (1 - Real.exp (min (s / chosen.tokens) meanBound)) -
          (min (t / rejected.tokens) meanBound -
            Real.log (1 - Real.exp (min (t / rejected.tokens) meanBound)))))) := by
  simp only [orpoTerms, SideScores.withSum, softplus_real, logOdds_real, mean_real,
    orpoMeanBound_real, Number.min_real, Number.sub_real, Number.mul_real, Number.add_real,
    Number.neg_real]

/-- ORPO's chosen coefficient: zero past the bound, and at the bound itself the slope from below
wherever there is one. -/
theorem orpo_slope_chosen (lambda : ℝ) (htokens : chosen.tokens ≠ 0)
    (hbound : chosen.mean ≠ orpoMeanBound ∨ DifferentiableAt ℝ
      (fun s => (orpoTerms lambda (chosen.withSum s) rejected).loss) chosen.sum) :
    HasDerivAt (fun s => (orpoTerms lambda (chosen.withSum s) rejected).loss)
      (-(orpoTerms lambda chosen rejected).chosenWeight) chosen.sum := by
  have hn : (chosen.tokens : ℝ) ≠ 0 := Nat.cast_ne_zero.mpr htokens
  have hloss (s : ℝ) := orpo_loss chosen rejected lambda s rejected.sum
  have hsame : rejected.withSum rejected.sum = rejected := rfl
  simp only [hsame] at hloss
  simp only [hloss] at hbound ⊢
  have hslope := orpo_chosen_slope lambda
    (min (rejected.sum / rejected.tokens) meanBound -
      Real.log (1 - Real.exp (min (rejected.sum / rejected.tokens) meanBound)))
    (l := min (chosen.sum / chosen.tokens) meanBound)
    (lt_of_le_of_lt (min_le_right _ _) meanBound_neg)
  have hmin := hasDerivAt_min hslope (hbound.imp id fun h => differentiableAt_of_mean hn h)
  refine (hasDerivAt_mean hmin).congr_deriv ?_
  simp only [orpoTerms, live_real, sigmoid_real, logOdds_real, mean_real, orpoMeanBound_real,
    SideScores.count, Number.ofNat_real, Number.min_real, Number.sub_real, Number.mul_real,
    Number.add_real, Number.neg_real]
  split_ifs
  · simp
  · norm_num
    ring

/-- ORPO's rejected coefficient, likewise. -/
theorem orpo_slope_rejected (lambda : ℝ) (htokens : rejected.tokens ≠ 0)
    (hbound : rejected.mean ≠ orpoMeanBound ∨ DifferentiableAt ℝ
      (fun t => (orpoTerms lambda chosen (rejected.withSum t)).loss) rejected.sum) :
    HasDerivAt (fun t => (orpoTerms lambda chosen (rejected.withSum t)).loss)
      (-(orpoTerms lambda chosen rejected).rejectedWeight) rejected.sum := by
  have hn : (rejected.tokens : ℝ) ≠ 0 := Nat.cast_ne_zero.mpr htokens
  have hloss (t : ℝ) := orpo_loss chosen rejected lambda chosen.sum t
  have hsame : chosen.withSum chosen.sum = chosen := rfl
  simp only [hsame] at hloss
  simp only [hloss] at hbound ⊢
  have hslope := orpo_rejected_slope lambda
    (min (chosen.sum / chosen.tokens) meanBound -
      Real.log (1 - Real.exp (min (chosen.sum / chosen.tokens) meanBound)))
    (-min (chosen.sum / chosen.tokens) meanBound)
    (l := min (rejected.sum / rejected.tokens) meanBound)
    (lt_of_le_of_lt (min_le_right _ _) meanBound_neg)
  have hmin := hasDerivAt_min hslope (hbound.imp id fun h => differentiableAt_of_mean hn h)
  refine (hasDerivAt_mean hmin).congr_deriv ?_
  simp only [orpoTerms, live_real, sigmoid_real, logOdds_real, mean_real, orpoMeanBound_real,
    SideScores.count, Number.ofNat_real, Number.min_real, Number.sub_real, Number.mul_real,
    Number.neg_real]
  split_ifs
  · simp
  · norm_num
    ring

end Margins

/-! ### Pairs -/

variable {terms : PairTerms ℝ}

/-- Over the reals a pair is refused only for an empty response or a missing reference. -/
theorem pairTerms_ok_iff {loss : PreferenceLoss ℝ} {chosen rejected : SideScores ℝ} :
    pairTerms loss chosen rejected = .ok terms ↔
      chosen.tokens ≠ 0 ∧ rejected.tokens ≠ 0 ∧ termsOf loss chosen rejected = .ok terms := by
  unfold pairTerms
  split_ifs with hempty hfinite
  · simp only [false_iff, not_and]
    tauto
  · simp at hfinite
  · rw [not_or] at hempty
    cases hterms : termsOf loss chosen rejected with
    | error e => simp
    | ok found => simp [PairTerms.allFinite, hempty.1, hempty.2]

/-- The loss a pair would have under other sums. -/
noncomputable def lossAt (loss : PreferenceLoss ℝ) (chosen rejected : SideScores ℝ) (s t : ℝ) : ℝ :=
  match pairTerms loss (chosen.withSum s) (rejected.withSum t) with
  | .ok terms => terms.loss
  | .error _ => 0

/-- Which sums a pair has decides nothing about whether it has terms. -/
theorem pairTerms_withSum {loss : PreferenceLoss ℝ} {chosen rejected : SideScores ℝ}
    (h : pairTerms loss chosen rejected = .ok terms) (s t : ℝ) :
    ∃ found, pairTerms loss (chosen.withSum s) (rejected.withSum t) = .ok found ∧
      lossAt loss chosen rejected s t = found.loss := by
  obtain ⟨hchosen, hrejected, hterms⟩ := pairTerms_ok_iff.mp h
  have hfound : ∃ found, termsOf loss (chosen.withSum s) (rejected.withSum t) = .ok found := by
    cases loss with
    | dpo beta epsilon | ipo beta =>
      cases ha : chosen.reference <;> cases hb : rejected.reference <;>
        simp_all [termsOf, SideScores.referenceFor, SideScores.withSum]
    | simpo beta gamma | orpo beta => exact ⟨_, rfl⟩
  obtain ⟨found, hfound⟩ := hfound
  have hok : pairTerms loss (chosen.withSum s) (rejected.withSum t) = .ok found :=
    pairTerms_ok_iff.mpr ⟨hchosen, hrejected, hfound⟩
  exact ⟨found, hok, by rw [lossAt, hok]⟩

/-- The one kind of point a loss has a kink at: ORPO's bound, met exactly. -/
def AtBound (loss : PreferenceLoss ℝ) (scores : SideScores ℝ) : Prop :=
  match loss with
  | .orpo _ => scores.mean = orpoMeanBound
  | _ => False

/-- What a pair's terms are, case by case: the loss under any sums, and its coefficients here. -/
inductive Computed (loss : PreferenceLoss ℝ) (chosen rejected : SideScores ℝ)
    (terms : PairTerms ℝ) : Prop
  | dpo (beta epsilon a b : ℝ) (hloss : loss = .dpo beta epsilon)
      (hat : lossAt loss chosen rejected = fun s t =>
        (dpoTerms beta epsilon (chosen.withSum s) (rejected.withSum t) a b).loss)
      (hterms : terms = dpoTerms beta epsilon chosen rejected a b)
  | ipo (beta a b : ℝ) (hloss : loss = .ipo beta)
      (hat : lossAt loss chosen rejected = fun s t =>
        (ipoTerms beta (chosen.withSum s) (rejected.withSum t) a b).loss)
      (hterms : terms = ipoTerms beta chosen rejected a b)
  | simpo (beta gamma : ℝ) (hloss : loss = .simpo beta gamma)
      (hat : lossAt loss chosen rejected = fun s t =>
        (simpoTerms beta gamma (chosen.withSum s) (rejected.withSum t)).loss)
      (hterms : terms = simpoTerms beta gamma chosen rejected)
  | orpo (lambda : ℝ) (hloss : loss = .orpo lambda)
      (hat : lossAt loss chosen rejected = fun s t =>
        (orpoTerms lambda (chosen.withSum s) (rejected.withSum t)).loss)
      (hterms : terms = orpoTerms lambda chosen rejected)

theorem computed {loss : PreferenceLoss ℝ} {chosen rejected : SideScores ℝ}
    (h : pairTerms loss chosen rejected = .ok terms) : Computed loss chosen rejected terms := by
  obtain ⟨hchosen, hrejected, hterms⟩ := pairTerms_ok_iff.mp h
  -- the same branch is taken under any sums
  have hat (found : ℝ → ℝ → PairTerms ℝ) (hfound : ∀ s t,
      termsOf loss (chosen.withSum s) (rejected.withSum t) = .ok (found s t)) :
      lossAt loss chosen rejected = fun s t => (found s t).loss := by
    funext s t
    have hok : pairTerms loss (chosen.withSum s) (rejected.withSum t) = .ok (found s t) :=
      pairTerms_ok_iff.mpr ⟨hchosen, hrejected, hfound s t⟩
    rw [lossAt, hok]
  cases loss with
  | dpo beta epsilon =>
    cases ha : chosen.reference with
    | none => simp [termsOf, SideScores.referenceFor, ha] at hterms
    | some a =>
      cases hb : rejected.reference with
      | none => simp [termsOf, SideScores.referenceFor, ha, hb] at hterms
      | some b =>
        refine .dpo beta epsilon a b rfl (hat _ fun s t => ?_) ?_
        · simp [termsOf, SideScores.referenceFor, SideScores.withSum, ha, hb]
        · simpa [termsOf, SideScores.referenceFor, ha, hb] using hterms.symm
  | ipo beta =>
    cases ha : chosen.reference with
    | none => simp [termsOf, SideScores.referenceFor, ha] at hterms
    | some a =>
      cases hb : rejected.reference with
      | none => simp [termsOf, SideScores.referenceFor, ha, hb] at hterms
      | some b =>
        refine .ipo beta a b rfl (hat _ fun s t => ?_) ?_
        · simp [termsOf, SideScores.referenceFor, SideScores.withSum, ha, hb]
        · simpa [termsOf, SideScores.referenceFor, ha, hb] using hterms.symm
  | simpo beta gamma =>
    exact .simpo beta gamma rfl (hat _ fun s t => rfl) (by simpa [termsOf] using hterms.symm)
  | orpo lambda =>
    exact .orpo lambda rfl (hat _ fun s t => rfl) (by simpa [termsOf] using hterms.symm)

/-- **The coefficients of a pair** are minus the slopes of its loss, except where ORPO's bound is
met exactly by a side in whose sum the loss has no slope. -/
theorem pair_slopes {loss : PreferenceLoss ℝ} {chosen rejected : SideScores ℝ}
    (h : pairTerms loss chosen rejected = .ok terms) : (¬ AtBound loss chosen ∨ DifferentiableAt ℝ
        (fun s => lossAt loss chosen rejected s rejected.sum) chosen.sum →
      HasDerivAt (fun s => lossAt loss chosen rejected s rejected.sum) (-terms.chosenWeight)
        chosen.sum) ∧
    (¬ AtBound loss rejected ∨ DifferentiableAt ℝ
        (fun t => lossAt loss chosen rejected chosen.sum t) rejected.sum →
      HasDerivAt (fun t => lossAt loss chosen rejected chosen.sum t) (-terms.rejectedWeight)
        rejected.sum) := by
  obtain ⟨hchosen, hrejected, -⟩ := pairTerms_ok_iff.mp h
  cases computed h with
  | dpo beta epsilon a b hloss hat hterms =>
    have hslopes := dpo_slopes beta epsilon chosen rejected a b
    rw [hat, hterms]
    exact ⟨fun _ => hslopes.chosen, fun _ => hslopes.rejected⟩
  | ipo beta a b hloss hat hterms =>
    have hslopes := ipo_slopes beta chosen rejected a b
    rw [hat, hterms]
    exact ⟨fun _ => hslopes.chosen, fun _ => hslopes.rejected⟩
  | simpo beta gamma hloss hat hterms =>
    have hslopes := simpo_slopes beta gamma chosen rejected
    rw [hat, hterms]
    exact ⟨fun _ => hslopes.chosen, fun _ => hslopes.rejected⟩
  | orpo lambda hloss hat hterms =>
    rw [hat, hterms, hloss]
    exact ⟨orpo_slope_chosen chosen rejected lambda hchosen,
      orpo_slope_rejected chosen rejected lambda hrejected⟩

/-- DPO moves the two responses by opposite amounts. -/
theorem dpo_cancels {beta epsilon : ℝ} {chosen rejected : SideScores ℝ}
    (h : pairTerms (.dpo beta epsilon) chosen rejected = .ok terms) :
    terms.chosenWeight + terms.rejectedWeight = 0 := by
  cases computed h with
  | dpo beta epsilon a b hloss hat hterms =>
    have hopposite : terms.rejectedWeight = -terms.chosenWeight := by rw [hterms]; rfl
    rw [hopposite, add_neg_cancel]
  | ipo beta a b hloss => cases hloss
  | simpo beta gamma hloss => cases hloss
  | orpo lambda hloss => cases hloss

end Retrograd.Training.Preference
