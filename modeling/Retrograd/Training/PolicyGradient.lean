import Retrograd.Training.PolicyWeights
import Retrograd.Logic.Derivatives

/-!
# Policy weights are the gradient of the reported loss

Over the reals the loss of a completion is piecewise smooth in its log-probabilities. Away from the
edges of the clip and the bounds of the log-ratios each token's weight is the coefficient of its
**negative log-probability** in the gradient; everywhere the weights stay bounded, and without a KL
coefficient the reference is not read.
-/

namespace Retrograd.Training.Policy

open Logic Filter Topology

/-! ### The clipped surrogate as a function of the ratio -/

/-- The surrogate's gradient is clipped away. -/
def Clipped (low high advantage ratio : ℝ) : Prop :=
  (advantage < 0 ∧ 3 < ratio) ∨ (0 < advantage ∧ 1 + high < ratio) ∨
    (advantage < 0 ∧ ratio < 1 - low)

open scoped Classical in
/-- The value of the objective, region by region. -/
noncomputable def value (low high advantage ratio : ℝ) : ℝ :=
  if advantage < 0 ∧ 3 < ratio then 3 * advantage
  else if 0 < advantage ∧ 1 + high < ratio then advantage * (1 + high)
  else if advantage < 0 ∧ ratio < 1 - low then advantage * (1 - low)
  else advantage * ratio

open scoped Classical in
/-- The coefficient of the negative log-probability. -/
noncomputable def coefficient (low high advantage ratio : ℝ) : ℝ :=
  if Clipped low high advantage ratio then 0 else advantage * ratio

theorem clamp_real (value low high : ℝ) :
    clamp value low high = if value < low then low else if high < value then high else value := by
  simp only [clamp, Number.lt_real]

theorem clippedSurrogate_real {low high : ℝ} (hlow : 0 ≤ low) (hhigh : 0 ≤ high)
    (advantage ratio : ℝ) :
    (clippedSurrogate advantage ratio low high).1 = coefficient low high advantage ratio ∧
      (clippedSurrogate advantage ratio low high).2.1 = value low high advantage ratio := by
  simp only [clippedSurrogate, clamp_real, dualClipC, Number.ofNat_real, Number.min_real,
    Number.add_real, Number.sub_real, Number.mul_real, Bool.and_eq_true, Bool.or_eq_true,
    Number.lt_real, Nat.cast_zero, Nat.cast_one, Nat.cast_ofNat, coefficient, value, Clipped]
  rcases lt_trichotomy advantage 0 with hneg | rfl | hpos
  · simp only [hneg, hneg.not_gt, true_and, false_and, false_or, if_false]
    by_cases hdual : 3 < ratio
    · simp [hdual]
    · by_cases hless : ratio < 1 - low
      · have hmin := mul_le_mul_of_nonpos_left hless.le hneg.le
        simp [hdual, hless, min_eq_right hmin]
      · -- the clipped ratio is no larger, and the advantage turns the order around
        have hclamp : (if 1 + high < ratio then 1 + high else ratio) ≤ ratio := by
          split_ifs with h
          exacts [h.le, le_rfl]
        have hmin := mul_le_mul_of_nonpos_left hclamp hneg.le
        simpa [hdual, hless] using hmin
  · simp
  · simp only [hpos, hpos.not_gt, true_and, false_and, or_false, false_or, if_false]
    by_cases hmore : 1 + high < ratio
    · have hless : ¬ ratio < 1 - low := by linarith
      have hmin := mul_le_mul_of_nonneg_left hmore.le hpos.le
      simp [hmore, hless, min_eq_right hmin]
    · have hclamp : ratio ≤ if ratio < 1 - low then 1 - low else ratio := by
        split_ifs with h
        exacts [h.le, le_rfl]
      have hmin := mul_le_mul_of_nonneg_left hclamp hpos.le
      simpa [hmore] using hmin

/-- No clip edge is met. -/
def OffEdges (low high ratio : ℝ) : Prop := ratio ≠ 1 - low ∧ ratio ≠ 1 + high ∧ ratio ≠ 3

theorem eventually_lt_iff {bound x : ℝ} (h : x ≠ bound) : ∀ᶠ y in 𝓝 x, bound < y ↔ bound < x := by
  rcases h.lt_or_gt with hlt | hgt
  · filter_upwards [Iio_mem_nhds hlt] with y hy
    exact iff_of_false (le_of_lt hy).not_gt hlt.not_gt
  · filter_upwards [Ioi_mem_nhds hgt] with y hy
    exact iff_of_true hy hgt

theorem eventually_gt_iff {bound x : ℝ} (h : x ≠ bound) : ∀ᶠ y in 𝓝 x, y < bound ↔ x < bound := by
  rcases h.lt_or_gt with hlt | hgt
  · filter_upwards [Iio_mem_nhds hlt] with y hy
    exact iff_of_true hy hlt
  · filter_upwards [Ioi_mem_nhds hgt] with y hy
    exact iff_of_false (le_of_lt hy).not_gt hgt.not_gt

open scoped Classical in
theorem hasDerivAt_value (advantage : ℝ) {low high ratio : ℝ} (h : OffEdges low high ratio) :
    HasDerivAt (value low high advantage)
      (if Clipped low high advantage ratio then 0 else advantage) ratio := by
  -- no region ends here, so the one of this ratio is that of its neighbours
  have hregion : value low high advantage =ᶠ[𝓝 ratio] fun y =>
      if advantage < 0 ∧ 3 < ratio then 3 * advantage
      else if 0 < advantage ∧ 1 + high < ratio then advantage * (1 + high)
      else if advantage < 0 ∧ ratio < 1 - low then advantage * (1 - low)
      else advantage * y := by
    filter_upwards [eventually_lt_iff h.2.2, eventually_lt_iff h.2.1, eventually_gt_iff h.1]
      with y hdual hmore hless
    simp only [value, hdual, hmore, hless]
  refine HasDerivAt.congr_of_eventuallyEq ?_ hregion
  have hlinear : HasDerivAt (fun y => advantage * y) advantage ratio := by
    simpa using (hasDerivAt_id ratio).const_mul advantage
  by_cases hdual : advantage < 0 ∧ 3 < ratio
  · rw [if_pos (show Clipped low high advantage ratio from .inl hdual)]
    simpa only [if_pos hdual] using hasDerivAt_const ratio (3 * advantage)
  by_cases hmore : 0 < advantage ∧ 1 + high < ratio
  · rw [if_pos (show Clipped low high advantage ratio from .inr (.inl hmore))]
    simpa only [if_neg hdual, if_pos hmore] using hasDerivAt_const ratio (advantage * (1 + high))
  by_cases hless : advantage < 0 ∧ ratio < 1 - low
  · rw [if_pos (show Clipped low high advantage ratio from .inr (.inr hless))]
    simpa only [if_neg hdual, if_neg hmore, if_pos hless] using
      hasDerivAt_const ratio (advantage * (1 - low))
  · rw [if_neg (show ¬ Clipped low high advantage ratio from fun h =>
      h.elim hdual fun h => h.elim hmore hless)]
    simpa only [if_neg hdual, if_neg hmore, if_neg hless] using hlinear

/-! ### One token -/

/-- A function of a log-ratio that reads it through the bound. -/
theorem hasDerivAt_clamp {f : ℝ → ℝ} {slope bound x : ℝ} (hx : |x| < bound)
    (hf : HasDerivAt f slope x) : HasDerivAt (fun y => f (clamp y (-bound) bound)) slope x := by
  refine hf.congr_of_eventuallyEq ?_
  filter_upwards [Ioo_mem_nhds (neg_lt_of_abs_lt hx) (lt_of_abs_lt hx)] with y hy
  rw [clamp_real, if_neg hy.1.not_gt, if_neg hy.2.not_gt]

theorem clamp_of_abs_lt {x bound : ℝ} (hx : |x| < bound) : clamp x (-bound) bound = x := by
  rw [clamp_real, if_neg (neg_lt_of_abs_lt hx).not_gt, if_neg (lt_of_abs_lt hx).not_gt]

theorem abs_clamp_le {bound : ℝ} (hbound : 0 ≤ bound) (x : ℝ) : |clamp x (-bound) bound| ≤ bound := by
  rw [clamp_real, abs_le]
  split_ifs <;> constructor <;> linarith

/-- The surrogate in the log-ratio. -/
theorem hasDerivAt_surrogate (advantage : ℝ) {low high log : ℝ} (hlog : |log| < 10)
    (hedges : OffEdges low high (Real.exp log)) :
    HasDerivAt (fun log => value low high advantage (Real.exp (clamp log (-10) 10)))
      (coefficient low high advantage (Real.exp log)) log := by
  refine hasDerivAt_clamp (f := fun log => value low high advantage (Real.exp log)) hlog ?_
  refine ((hasDerivAt_value advantage hedges).comp log (Real.hasDerivAt_exp log)).congr_deriv ?_
  rw [coefficient, ite_mul, zero_mul]

/-- The k3 estimate of a log-ratio. -/
noncomputable def k3 (log : ℝ) : ℝ := Real.exp (clamp log (-5) 5) - clamp log (-5) 5 - 1

theorem hasDerivAt_k3 {log : ℝ} (hlog : |log| < 5) : HasDerivAt k3 (Real.exp log - 1) log :=
  hasDerivAt_clamp (f := fun log => Real.exp log - log - 1) hlog
    (((Real.hasDerivAt_exp log).sub (hasDerivAt_id log)).sub_const 1)

/-- The k3 term, which is not there without a coefficient. -/
theorem hasDerivAt_kl {kl log : ℝ} (h : kl ≠ 0 → |log| < 5) :
    HasDerivAt (fun log => kl * k3 log) (kl * (Real.exp (clamp log (-5) 5) - 1)) log := by
  by_cases hkl : kl = 0
  · simpa [hkl] using hasDerivAt_const log (0 : ℝ)
  · rw [clamp_of_abs_lt (h hkl)]
    exact (hasDerivAt_k3 (h hkl)).const_mul kl

/-- The ratio past which the gradient is clipped away bounds the coefficient. -/
theorem abs_coefficient_le (low high advantage : ℝ) {ratio : ℝ} (hratio : 0 ≤ ratio) :
    |coefficient low high advantage ratio| ≤ max 3 (1 + high) * |advantage| := by
  have hbound : 0 ≤ max 3 (1 + high) * |advantage| :=
    mul_nonneg (le_max_of_le_left (by norm_num)) (abs_nonneg _)
  unfold coefficient
  split_ifs with hclipped
  · rwa [abs_zero]
  · obtain ⟨hdual, hmore, -⟩ := (not_or.mp hclipped).imp_right not_or.mp
    rw [abs_mul, abs_of_nonneg hratio, mul_comm]
    rcases lt_trichotomy advantage 0 with hneg | rfl | hpos
    · have hle : ratio ≤ 3 := not_lt.mp fun h => hdual ⟨hneg, h⟩
      exact mul_le_mul_of_nonneg_right (le_max_of_le_left hle) (abs_nonneg _)
    · simp
    · have hle : ratio ≤ 1 + high := not_lt.mp fun h => hmore ⟨hpos, h⟩
      exact mul_le_mul_of_nonneg_right (le_max_of_le_right hle) (abs_nonneg _)

/-- The k3 term's coefficient is bounded with its log-ratio. -/
theorem abs_exp_clamp_sub_one_le (log : ℝ) : |Real.exp (clamp log (-5) 5) - 1| ≤ Real.exp 5 := by
  have hle := Real.exp_le_exp.mpr (le_of_abs_le (abs_clamp_le (by norm_num : (0 : ℝ) ≤ 5) log))
  have hpos := Real.exp_pos (clamp log (-5) 5)
  have hone := Real.one_le_exp (by norm_num : (0 : ℝ) ≤ 5)
  rw [abs_le]
  constructor <;> linarith

theorem abs_weight_le {low high kl advantage ratio log : ℝ} (hkl : 0 ≤ kl) (hratio : 0 ≤ ratio) :
    |coefficient low high advantage ratio + kl * (Real.exp (clamp log (-5) 5) - 1)| ≤
        max 3 (1 + high) * |advantage| + kl * Real.exp 5 ∧
      |coefficient low high advantage ratio + kl * (1 - Real.exp (clamp log (-5) 5))| ≤
        max 3 (1 + high) * |advantage| + kl * Real.exp 5 := by
  have hcoefficient := abs_coefficient_le low high advantage hratio
  have hterm := mul_le_mul_of_nonneg_left (abs_exp_clamp_sub_one_le log) hkl
  constructor
  · refine (abs_add_le _ _).trans (add_le_add hcoefficient ?_)
    rwa [abs_mul, abs_of_nonneg hkl]
  · refine (abs_add_le _ _).trans (add_le_add hcoefficient ?_)
    rwa [abs_mul, abs_of_nonneg hkl, abs_sub_comm]

/-! ### A completion, token by token -/

/-- What the objective reads of one token, and the change of its log-probability. -/
structure Token where
  old : ℝ
  new : ℝ
  advantage : ℝ
  reference : ℝ
  change : ℝ

/-- Lists of one length are the columns of one list of tokens. -/
theorem exists_tokens : ∀ {old new advantages references direction : List ℝ},
    old.length = new.length → advantages.length = new.length → references.length = new.length →
    direction.length = new.length → ∃ tokens : List Token, old = tokens.map Token.old ∧
      new = tokens.map Token.new ∧ advantages = tokens.map Token.advantage ∧
      references = tokens.map Token.reference ∧ direction = tokens.map Token.change
  | [], [], [], [], [], _, _, _, _ => ⟨[], rfl, rfl, rfl, rfl, rfl⟩
  | o :: old, n :: new, a :: advantages, r :: references, d :: direction, ho, ha, hr, hd => by
    obtain ⟨tokens, rfl, rfl, rfl, rfl, rfl⟩ := exists_tokens (Nat.succ.inj ho) (Nat.succ.inj ha)
      (Nat.succ.inj hr) (Nat.succ.inj hd)
    exact ⟨⟨o, n, a, r, d⟩ :: tokens, rfl, rfl, rfl, rfl, rfl⟩

/-- The loss the statistics report, before it is divided. -/
noncomputable def Tally.loss (klCoefficient : ℝ) (tally : Tally ℝ) : ℝ :=
  tally.surrogateLoss + klCoefficient * tally.kl

/-- The log-probabilities after a step of size `x` in a direction. -/
noncomputable def moved (logprobs direction : List ℝ) (x : ℝ) : List ℝ :=
  List.zipWith (fun logprob change => logprob + x * change) logprobs direction

/-- What the weights say the loss changes by in a direction: each weighs the change of its token's
negative log-probability. -/
noncomputable def weighted (weights direction : List ℝ) : ℝ :=
  (List.zipWith (fun weight change => weight * -change) weights direction).sum

variable (tokens : List Token)

/-- The log-probability of a token after a step of size `x`. -/
noncomputable def Token.after (t : Token) (x : ℝ) : ℝ := t.new + x * t.change

theorem moved_tokens (x : ℝ) : moved (tokens.map Token.new) (tokens.map Token.change) x =
    tokens.map fun t => t.after x := by
  rw [moved, List.zipWith_map, List.zipWith_self]
  rfl

theorem Token.hasDerivAt (t : Token) (origin : ℝ) :
    HasDerivAt (fun x => t.after x - origin) t.change 0 := by
  have hstep := ((hasDerivAt_id (0 : ℝ)).mul_const t.change).const_add t.new
  simpa [Token.after] using hstep.sub_const origin

theorem Token.after_zero (t : Token) : t.after 0 = t.new := by rw [Token.after, zero_mul, add_zero]

theorem weighted_tokens (weight : Token → ℝ) :
    weighted (tokens.map weight) (tokens.map Token.change) =
      (tokens.map fun t => weight t * -t.change).sum := by
  rw [weighted, List.zipWith_map, List.zipWith_self]

/-- The loop adds a weight and a loss for every token. -/
theorem foldl_tally {α : Type} {step : List ℝ × Tally ℝ → α → List ℝ × Tally ℝ} {weight loss : α → ℝ}
    {kl : ℝ} (h : ∀ acc a, (step acc a).1 = acc.1 ++ [weight a] ∧
      (step acc a).2.loss kl = acc.2.loss kl + loss a) (l : List α) (acc : List ℝ × Tally ℝ) :
    (l.foldl step acc).1 = acc.1 ++ l.map weight ∧
      (l.foldl step acc).2.loss kl = acc.2.loss kl + (l.map loss).sum := by
  induction l generalizing acc with
  | nil => simp
  | cons a l ih =>
    obtain ⟨hweights, hloss⟩ := ih (step acc a)
    rw [List.foldl_cons, hweights, hloss, (h acc a).1, (h acc a).2]
    simp [add_assoc]

theorem loss_record (tally : Tally ℝ) (kl objective klStat ratio : ℝ) (clippedOut : Bool) :
    (tally.record objective klStat ratio clippedOut).loss kl =
      tally.loss kl + (-objective + kl * klStat) := by
  simp only [Tally.record, Tally.loss, Number.add_real, Number.neg_real]
  ring

theorem loss_empty (kl : ℝ) : (Tally.empty : Tally ℝ).loss kl = 0 := by
  simp [Tally.empty, Tally.loss]

/-! ### PPO -/

section Ppo

variable (clip kl : ℝ)

noncomputable def ppoWeight (t : Token) (new : ℝ) : ℝ :=
  coefficient clip clip t.advantage (Real.exp (clamp (new - t.old) (-10) 10)) +
    kl * (1 - Real.exp (clamp (new - t.old) (-5) 5))

noncomputable def ppoLoss (t : Token) (new : ℝ) : ℝ :=
  -value clip clip t.advantage (Real.exp (clamp (new - t.old) (-10) 10)) + kl * k3 (new - t.old)

theorem ppoTally_tokens {clip : ℝ} (hclip : 0 ≤ clip) (new : Token → ℝ) :
    (ppoTally (tokens.map Token.advantage) (tokens.map Token.old) (tokens.map new) clip kl).1 =
        tokens.map (fun t => ppoWeight clip kl t (new t)) ∧
      (ppoTally (tokens.map Token.advantage) (tokens.map Token.old) (tokens.map new) clip
        kl).2.loss kl = (tokens.map fun t => ppoLoss clip kl t (new t)).sum := by
  have hstep (acc : List ℝ × Tally ℝ) (t : Token) :
      (ppoStep clip kl acc ((t.old, new t), t.advantage)).1 =
          acc.1 ++ [ppoWeight clip kl t (new t)] ∧
        (ppoStep clip kl acc ((t.old, new t), t.advantage)).2.loss kl =
          acc.2.loss kl + ppoLoss clip kl t (new t) := by
    obtain ⟨hcoefficient, hvalue⟩ := clippedSurrogate_real hclip hclip t.advantage
      (Real.exp (clamp (new t - t.old) (-10) 10))
    simp only [ppoStep, ppoTokenWeight, policyLogRatioLimit, referenceLogRatioLimit,
      Number.ofNat_real, Number.exp_real, Number.add_real, Number.sub_real, Number.mul_real,
      Number.neg_real, loss_record, Nat.cast_one, Nat.cast_ofNat, hcoefficient, hvalue, ppoWeight,
      ppoLoss, k3, true_and]
    ring
  have hfold := foldl_tally hstep tokens ([], .empty)
  rw [loss_empty, zero_add, List.nil_append] at hfold
  rw [ppoTally, List.zip_map', List.zip_map', List.foldl_map]
  exact hfold

/-- **A PPO weight is the slope of the loss** in its token's negative log-probability. -/
theorem hasDerivAt_ppoLoss {t : Token} (hlog : |t.new - t.old| < 10)
    (hedges : OffEdges clip clip (Real.exp (t.new - t.old)))
    (hanchor : kl ≠ 0 → |t.new - t.old| < 5) :
    HasDerivAt (fun x => ppoLoss clip kl t (t.after x)) (ppoWeight clip kl t t.new * -t.change) 0 := by
  have hstart : t.new - t.old = t.after 0 - t.old := by rw [t.after_zero]
  have hsurrogate := (hasDerivAt_surrogate t.advantage hlog hedges).comp_of_eq 0
    (t.hasDerivAt t.old) hstart
  have hkl := (hasDerivAt_kl hanchor).comp_of_eq 0 (t.hasDerivAt t.old) hstart
  refine (hsurrogate.neg.add hkl).congr_deriv ?_
  rw [ppoWeight, clamp_of_abs_lt hlog]
  ring

end Ppo

/-! ### Dr. GRPO -/

section Grpo

/-- The loop adds a weight and a loss for every token, where no token is missing. -/
theorem foldlM_tally {α : Type} {step : List ℝ × Tally ℝ → α → Except Error (List ℝ × Tally ℝ)}
    {weight loss : α → ℝ} {kl : ℝ} {l : List α}
    (h : ∀ a ∈ l, ∀ acc, ∃ tally, step acc a = .ok (acc.1 ++ [weight a], tally) ∧
      tally.loss kl = acc.2.loss kl + loss a) (acc : List ℝ × Tally ℝ) :
    ∃ tally, l.foldlM step acc = .ok (acc.1 ++ l.map weight, tally) ∧
      tally.loss kl = acc.2.loss kl + (l.map loss).sum := by
  induction l generalizing acc with
  | nil => exact ⟨acc.2, by simp; rfl, by simp⟩
  | cons a l ih =>
    obtain ⟨next, hnext, hnextLoss⟩ := h a (.head _) acc
    obtain ⟨tally, htally, hloss⟩ := ih (fun a ha => h a (.tail _ ha)) (acc.1 ++ [weight a], next)
    refine ⟨tally, ?_, ?_⟩
    · rw [List.foldlM_cons, hnext]
      refine htally.trans ?_
      rw [List.map_cons, List.append_assoc, List.singleton_append]
    · rw [hloss, hnextLoss, List.map_cons, List.sum_cons, add_assoc]

variable (objective : Objective ℝ)

noncomputable def grpoWeight (t : Token) (ratio new : ℝ) : ℝ :=
  coefficient objective.clipRangeLow objective.clipRangeHigh t.advantage ratio +
    objective.klCoefficient * (Real.exp (clamp (t.reference - new) (-5) 5) - 1)

noncomputable def grpoLoss (t : Token) (ratio new : ℝ) : ℝ :=
  -value objective.clipRangeLow objective.clipRangeHigh t.advantage ratio +
    objective.klCoefficient * k3 (t.reference - new)

/-- The log-ratio whose bound a token's ratio reads: its own, or the mean of the completion's. -/
noncomputable def logRatio (level : ImportanceSamplingLevel) (new : Token → ℝ) (t : Token) : ℝ :=
  match level with
  | .token => new t - t.old
  | .sequence => (tokens.map fun t => new t - t.old).sum / tokens.length

noncomputable def ratio (level : ImportanceSamplingLevel) (new : Token → ℝ) (t : Token) : ℝ :=
  Real.exp (clamp (logRatio tokens level new t) (-10) 10)

/-- The advantages are those of the completion, or of its tokens. -/
def Advantages (advantage : ℝ) (tokenAdvantages : Option (List ℝ)) (advantages : List ℝ) : Prop :=
  match tokenAdvantages with
  | none => advantages = List.replicate advantages.length advantage
  | some values => values = advantages

variable {objective tokens}

theorem grpoTokenWeight_token (hlow : 0 ≤ objective.clipRangeLow)
    (hhigh : 0 ≤ objective.clipRangeHigh) (t : Token) (ratio new : ℝ) (tally : Tally ℝ)
    {reference : Option ℝ} (hreference : if objective.klCoefficient = 0 then reference = none
      else reference = some t.reference) :
    (grpoTokenWeight objective t.advantage ratio new reference tally).1 =
        grpoWeight objective t ratio new ∧
      (grpoTokenWeight objective t.advantage ratio new reference tally).2.loss
          objective.klCoefficient = tally.loss objective.klCoefficient + grpoLoss objective t ratio new := by
  obtain ⟨hcoefficient, hvalue⟩ := clippedSurrogate_real hlow hhigh t.advantage ratio
  by_cases hkl : objective.klCoefficient = 0
  · rw [if_pos hkl] at hreference
    simp [grpoTokenWeight, hreference, grpoWeight, grpoLoss, loss_record, hcoefficient, hvalue, hkl]
  · rw [if_neg hkl] at hreference
    simp only [grpoTokenWeight, hreference, referenceLogRatioLimit, Number.ofNat_real,
      Number.exp_real, Number.add_real, Number.sub_real, Number.mul_real, Number.neg_real,
      loss_record, Nat.cast_one, Nat.cast_ofNat, hcoefficient, hvalue, grpoWeight, grpoLoss, k3,
      and_self]

theorem grpoStep_token {advantage : ℝ} {tokenAdvantages : Option (List ℝ)} {references : List ℝ}
    (hlow : 0 ≤ objective.clipRangeLow) (hhigh : 0 ≤ objective.clipRangeHigh)
    (hadvantages : Advantages advantage tokenAdvantages (tokens.map Token.advantage))
    (hreferences : objective.klCoefficient ≠ 0 → references = tokens.map Token.reference)
    (sequenceRatio : Option ℝ) (new : Token → ℝ) {t : Token} {i : ℕ} (ht : tokens[i]? = some t)
    (acc : List ℝ × Tally ℝ) : ∃ tally,
    grpoStep objective advantage tokenAdvantages references sequenceRatio
        (objective.klCoefficient != Number.ofNat 0) acc ((t.old, new t), i) =
      .ok (acc.1 ++ [grpoWeight objective t
        (sequenceRatio.getD (Real.exp (clamp (new t - t.old) (-10) 10))) (new t)], tally) ∧
      tally.loss objective.klCoefficient = acc.2.loss objective.klCoefficient +
        grpoLoss objective t (sequenceRatio.getD (Real.exp (clamp (new t - t.old) (-10) 10)))
          (new t) := by
  have hread (f : Token → ℝ) : read (tokens.map f) i = .ok (f t) := by
    rw [read, List.getElem?_map, ht]
    rfl
  have hadvantage : advantageAt advantage tokenAdvantages i = .ok t.advantage := by
    rcases tokenAdvantages with _ | values
    · have hmem : t.advantage ∈ tokens.map Token.advantage :=
        List.mem_map_of_mem (List.mem_of_getElem? ht)
      rw [Advantages] at hadvantages
      rw [hadvantages] at hmem
      rw [List.eq_of_mem_replicate hmem, advantageAt]
    · rw [Advantages] at hadvantages
      exact hadvantages ▸ hread Token.advantage
  obtain ⟨reference, hreference, hanchor⟩ : ∃ reference : Option ℝ,
      referenceAt references (objective.klCoefficient != Number.ofNat 0) i = .ok reference ∧
      if objective.klCoefficient = 0 then reference = none else reference = some t.reference := by
    by_cases hkl : objective.klCoefficient = 0
    · exact ⟨none, by simp [referenceAt, hkl], by simp [hkl]⟩
    · refine ⟨some t.reference, ?_, by simp [hkl]⟩
      rw [referenceAt, if_pos (by simp [hkl]), hreferences hkl, hread]
      rfl
  obtain ⟨hweight, hloss⟩ := grpoTokenWeight_token hlow hhigh t
    (sequenceRatio.getD (Real.exp (clamp (new t - t.old) (-10) 10))) (new t) acc.2 hanchor
  refine ⟨_, ?_, hloss⟩
  simp only [grpoStep, hadvantage, hreference, ← hweight]
  rfl

theorem sequencePolicyRatio_tokens (new : Token → ℝ) (t : Token) :
    sequencePolicyRatio (tokens.map Token.old) (tokens.map new) = ratio tokens .sequence new t := by
  simp only [sequencePolicyRatio, PolicyNumber.meanLogRatio, List.zip_map', List.map_map, ratio,
    logRatio, List.length_map, policyLogRatioLimit, Number.ofNat_real, Number.exp_real,
    Number.neg_real, Nat.cast_ofNat]
  rfl

theorem grpoTally_tokens {advantage : ℝ} {tokenAdvantages : Option (List ℝ)} {references : List ℝ}
    (hlow : 0 ≤ objective.clipRangeLow) (hhigh : 0 ≤ objective.clipRangeHigh)
    (hadvantages : Advantages advantage tokenAdvantages (tokens.map Token.advantage))
    (hreferences : objective.klCoefficient ≠ 0 → references = tokens.map Token.reference)
    (new : Token → ℝ) : ∃ tally,
    grpoTally objective advantage tokenAdvantages (tokens.map Token.old) (tokens.map new)
        references = .ok (tokens.map (fun t => grpoWeight objective t
          (ratio tokens objective.importanceSampling new t) (new t)), tally) ∧
      tally.loss objective.klCoefficient = (tokens.map fun t => grpoLoss objective t
        (ratio tokens objective.importanceSampling new t) (new t)).sum := by
  obtain ⟨sequenceRatio, htally, hratio⟩ : ∃ sequenceRatio : Option ℝ,
      grpoTally objective advantage tokenAdvantages (tokens.map Token.old) (tokens.map new)
          references = ((tokens.map Token.old).zip (tokens.map new)).zipIdx.foldlM
        (grpoStep objective advantage tokenAdvantages references sequenceRatio
          (objective.klCoefficient != Number.ofNat 0)) ([], .empty) ∧
      ∀ t, sequenceRatio.getD (Real.exp (clamp (new t - t.old) (-10) 10)) =
        ratio tokens objective.importanceSampling new t := by
    unfold grpoTally
    rcases objective.importanceSampling with _ | _
    · exact ⟨none, rfl, fun t => rfl⟩
    · exact ⟨_, rfl, sequencePolicyRatio_tokens new⟩
  have hcolumns : ((tokens.map Token.old).zip (tokens.map new)).zipIdx =
      tokens.zipIdx.map fun token => ((token.1.old, new token.1), token.2) := by
    rw [List.zip_map', List.zipIdx_map]
    rfl
  have hstep (token : Token × ℕ) (htoken : token ∈ tokens.zipIdx) (acc : List ℝ × Tally ℝ) :=
    grpoStep_token hlow hhigh hadvantages hreferences sequenceRatio new
      (List.mem_zipIdx_iff_getElem?.mp htoken) acc
  obtain ⟨tally, hfold, hloss⟩ := foldlM_tally hstep ([], .empty)
  have hfst {β : Type} (f : Token → β) : (tokens.zipIdx.map fun token => f token.1) = tokens.map f :=
    calc (tokens.zipIdx.map fun token => f token.1)
        = (tokens.zipIdx.map Prod.fst).map f := List.map_map.symm
      _ = tokens.map f := by rw [List.zipIdx_map_fst]
  simp only [hratio] at hfold hloss
  refine ⟨tally, ?_, ?_⟩
  · rw [htally, hcolumns, List.foldlM_map]
    refine hfold.trans ?_
    rw [List.nil_append, ← hfst]
  · rw [hloss, loss_empty, zero_add, ← hfst]

/-- The slope of one token's loss, given that of its ratio's logarithm. -/
theorem hasDerivAt_grpoLoss {t : Token} {log : ℝ → ℝ} {change : ℝ}
    (hmoves : HasDerivAt log change 0) (hlog : |log 0| < 10)
    (hedges : OffEdges objective.clipRangeLow objective.clipRangeHigh (Real.exp (log 0)))
    (hanchor : objective.klCoefficient ≠ 0 → |t.reference - t.new| < 5) :
    HasDerivAt (fun x => grpoLoss objective t (Real.exp (clamp (log x) (-10) 10)) (t.after x))
      (coefficient objective.clipRangeLow objective.clipRangeHigh t.advantage (Real.exp (log 0)) *
          -change +
        objective.klCoefficient * (Real.exp (clamp (t.reference - t.new) (-5) 5) - 1) *
          -t.change) 0 := by
  have hdistance : HasDerivAt (fun x => t.reference - t.after x) (-t.change) 0 := by
    simpa using (t.hasDerivAt t.reference).fun_neg
  have hstart : t.reference - t.new = t.reference - t.after 0 := by rw [t.after_zero]
  have hsurrogate := (hasDerivAt_surrogate t.advantage hlog hedges).comp 0 hmoves
  have hkl := (hasDerivAt_kl hanchor).comp_of_eq 0 hdistance hstart
  refine (hsurrogate.neg.add hkl).congr_deriv ?_
  ring

/-- The log-ratio of a token, or of its completion, stays below its bound and off the edges. -/
structure Smooth (objective : Objective ℝ) (tokens : List Token) : Prop where
  log : ∀ t ∈ tokens, |logRatio tokens objective.importanceSampling Token.new t| < 10
  edges : ∀ t ∈ tokens, OffEdges objective.clipRangeLow objective.clipRangeHigh
    (Real.exp (logRatio tokens objective.importanceSampling Token.new t))
  anchor : objective.klCoefficient ≠ 0 → ∀ t ∈ tokens, |t.reference - t.new| < 5

/-- What the weight of a token adds to the change of the loss. -/
theorem sum_grpoLoss_token (h : Smooth objective tokens)
    (hlevel : objective.importanceSampling = .token) :
    HasDerivAt (fun x => (tokens.map fun t => grpoLoss objective t
        (ratio tokens .token (fun t => t.after x) t) (t.after x)).sum)
      (tokens.map fun t => grpoWeight objective t (ratio tokens .token Token.new t) t.new *
        -t.change).sum 0 := by
  obtain ⟨hlogs, hedges, hanchor⟩ := h
  rw [hlevel] at hlogs hedges
  refine hasDerivAt_list_sum fun t ht => ?_
  have hstart : t.after 0 - t.old = t.new - t.old := by rw [t.after_zero]
  have hlog : |t.new - t.old| < 10 := hlogs t ht
  refine (hasDerivAt_grpoLoss (t.hasDerivAt t.old) (hstart ▸ hlog) (hstart ▸ hedges t ht)
    fun hkl => hanchor hkl t ht).congr_deriv ?_
  rw [hstart, grpoWeight, ratio, logRatio, clamp_of_abs_lt hlog]
  ring

/-- A share of the changes for every token, with one coefficient for all, is the coefficient of the
changes. -/
theorem sum_shared (k : ℝ) (f : Token → ℝ) :
    (tokens.map fun t => k * -((tokens.map Token.change).sum / tokens.length) +
        f t * -t.change).sum = (tokens.map fun t => (k + f t) * -t.change).sum := by
  rcases eq_or_ne tokens [] with rfl | hne
  · rfl
  have hlength : (tokens.length : ℝ) ≠ 0 := by simpa using hne
  have hsplit : (tokens.map fun t => (k + f t) * -t.change) =
      tokens.map fun t => -k * t.change + f t * -t.change :=
    List.map_congr_left fun t _ => by ring
  rw [hsplit, List.sum_map_add, List.sum_map_add, List.map_const', List.sum_replicate,
    List.sum_map_mul_left, nsmul_eq_mul]
  congr 1
  field_simp

/-- A ratio shared by the completion weighs every token alike, and its share of the mean change is
what the weights add up to. -/
theorem sum_grpoLoss_sequence (h : Smooth objective tokens)
    (hlevel : objective.importanceSampling = .sequence) {advantage : ℝ}
    (hconstant : ∀ t ∈ tokens, t.advantage = advantage) :
    HasDerivAt (fun x => (tokens.map fun t => grpoLoss objective t
        (ratio tokens .sequence (fun t => t.after x) t) (t.after x)).sum)
      (tokens.map fun t => grpoWeight objective t (ratio tokens .sequence Token.new t) t.new *
        -t.change).sum 0 := by
  obtain ⟨hlogs, hedges, hanchor⟩ := h
  rw [hlevel] at hlogs hedges
  have hmoves (t : Token) : HasDerivAt (fun x => logRatio tokens .sequence (fun t => t.after x) t)
      ((tokens.map Token.change).sum / tokens.length) 0 :=
    (hasDerivAt_list_sum fun t _ => t.hasDerivAt t.old).div_const _
  have hstart (t : Token) : logRatio tokens .sequence (fun t => t.after 0) t =
      logRatio tokens .sequence Token.new t := by
    simp only [logRatio, Token.after_zero]
  have hterm (t : Token) (ht : t ∈ tokens) := hasDerivAt_grpoLoss (hmoves t)
    (by rw [hstart]; exact hlogs t ht) (by rw [hstart]; exact hedges t ht)
    fun hkl => hanchor hkl t ht
  refine (hasDerivAt_list_sum hterm).congr_deriv ?_
  have hmean (t : Token) : logRatio tokens .sequence Token.new t =
      (tokens.map fun t => t.new - t.old).sum / tokens.length := rfl
  set k := coefficient objective.clipRangeLow objective.clipRangeHigh advantage
    (Real.exp ((tokens.map fun t => t.new - t.old).sum / tokens.length)) with hk
  set anchor : Token → ℝ := fun t =>
    objective.klCoefficient * (Real.exp (clamp (t.reference - t.new) (-5) 5) - 1) with hanchors
  calc _ = (tokens.map fun t => k * -((tokens.map Token.change).sum / tokens.length) +
          anchor t * -t.change).sum := by
        refine congrArg List.sum (List.map_congr_left fun t ht => ?_)
        rw [hstart, hmean, hconstant t ht]
    _ = (tokens.map fun t => (k + anchor t) * -t.change).sum := sum_shared k anchor
    _ = _ := by
        refine congrArg List.sum (List.map_congr_left fun t ht => ?_)
        rw [grpoWeight, ratio, clamp_of_abs_lt (hlogs t ht), hmean, hconstant t ht]

/-- Without a coefficient the reference is not read. -/
theorem grpoTally_reference (hkl : objective.klCoefficient = 0) (advantage : ℝ)
    (tokenAdvantages : Option (List ℝ)) (old new references references' : List ℝ) :
    grpoTally objective advantage tokenAdvantages old new references =
      grpoTally objective advantage tokenAdvantages old new references' := by
  have hoff : (objective.klCoefficient != Number.ofNat 0) = false := by simp [hkl]
  unfold grpoTally
  simp only [hoff]
  rfl

end Grpo

/-! ### The gradient -/

/-- The advantage of each token: its own, or the completion's. -/
def advantagesOf (advantage : ℝ) (tokenAdvantages : Option (List ℝ)) (count : ℕ) : List ℝ :=
  tokenAdvantages.getD (List.replicate count advantage)

/-- No log-ratio of a PPO completion reaches its bound, and no ratio an edge. -/
def PpoSmooth (clip kl : ℝ) (old new : List ℝ) : Prop :=
  ∀ pair ∈ old.zip new, |pair.2 - pair.1| < 10 ∧ (kl ≠ 0 → |pair.2 - pair.1| < 5) ∧
    OffEdges clip clip (Real.exp (pair.2 - pair.1))

/-- The logarithms whose exponentials are the ratios of a completion. -/
noncomputable def logRatios (level : ImportanceSamplingLevel) (old new : List ℝ) : List ℝ :=
  match level with
  | .token => List.zipWith (fun old new => new - old) old new
  | .sequence => [(List.zipWith (fun old new => new - old) old new).sum / old.length]

/-- No log-ratio of a GRPO completion reaches its bound, and no ratio an edge. -/
structure GrpoSmooth (objective : Objective ℝ) (old new references : List ℝ) : Prop where
  ratios : ∀ log ∈ logRatios objective.importanceSampling old new, |log| < 10 ∧
    OffEdges objective.clipRangeLow objective.clipRangeHigh (Real.exp log)
  anchor : objective.klCoefficient ≠ 0 → ∀ pair ∈ references.zip new, |pair.1 - pair.2| < 5

/-- The bound on the weights. -/
def WithinBound (high kl : ℝ) (weights advantages : List ℝ) : Prop :=
  List.Forall₂ (fun weight advantage => |weight| ≤ max 3 (1 + high) * |advantage| + kl * Real.exp 5)
    weights advantages

theorem GrpoSmooth.smooth {objective : Objective ℝ}
    (h : GrpoSmooth objective (tokens.map Token.old) (tokens.map Token.new)
      (tokens.map Token.reference)) : Smooth objective tokens := by
  obtain ⟨hratios, hanchor⟩ := h
  have hlogs : ∀ t ∈ tokens, logRatio tokens objective.importanceSampling Token.new t ∈
      logRatios objective.importanceSampling (tokens.map Token.old) (tokens.map Token.new) := by
    intro t ht
    rcases objective.importanceSampling with _ | _
    · rw [logRatios, List.zipWith_map, List.zipWith_self]
      exact List.mem_map_of_mem ht
    · rw [logRatios, List.zipWith_map, List.zipWith_self, List.length_map]
      exact List.mem_singleton_self _
  refine ⟨fun t ht => (hratios _ (hlogs t ht)).1, fun t ht => (hratios _ (hlogs t ht)).2,
    fun hkl t ht => ?_⟩
  refine hanchor hkl (t.reference, t.new) ?_
  rw [List.zip_map']
  exact List.mem_map_of_mem (f := fun t => (t.reference, t.new)) ht

theorem ppoTokenWeights_gradient {old new advantages direction : List ℝ} {clip kl : ℝ}
    (hold : old.length = new.length) (hadvantages : advantages.length = new.length)
    (hdirection : direction.length = new.length) (hclip : 0 ≤ clip) (hkl : 0 ≤ kl) :
    (PpoSmooth clip kl old new → HasDerivAt
      (fun x => (ppoTally advantages old (moved new direction x) clip kl).2.loss kl)
      (weighted (ppoTokenWeights advantages old new clip kl).1 direction) 0) ∧
    WithinBound clip kl (ppoTokenWeights advantages old new clip kl).1 advantages := by
  obtain ⟨tokens, rfl, rfl, rfl, -, rfl⟩ :=
    exists_tokens hold hadvantages (rfl : new.length = new.length) hdirection
  have hweights : (ppoTokenWeights (tokens.map Token.advantage) (tokens.map Token.old)
      (tokens.map Token.new) clip kl).1 = tokens.map fun t => ppoWeight clip kl t t.new :=
    (ppoTally_tokens tokens kl hclip Token.new).1
  rw [hweights]
  refine ⟨fun hsmooth => ?_, ?_⟩
  · rw [weighted_tokens]
    have hloss (x : ℝ) := (ppoTally_tokens tokens kl hclip fun t => t.after x).2
    simp only [moved_tokens, hloss]
    refine hasDerivAt_list_sum fun t ht => ?_
    have hmem : (t.old, t.new) ∈ (tokens.map Token.old).zip (tokens.map Token.new) := by
      rw [List.zip_map']
      exact List.mem_map_of_mem (f := fun t => (t.old, t.new)) ht
    obtain ⟨hlog, hanchor, hedges⟩ := hsmooth _ hmem
    exact hasDerivAt_ppoLoss clip kl hlog hedges hanchor
  · rw [WithinBound, List.forall₂_map_left_iff, List.forall₂_map_right_iff, List.forall₂_same]
    exact fun t _ => (abs_weight_le hkl (Real.exp_pos _).le).2

theorem advantages_tokens {advantage : ℝ} {tokenAdvantages : Option (List ℝ)}
    (h : advantagesOf advantage tokenAdvantages tokens.length = tokens.map Token.advantage) :
    Advantages advantage tokenAdvantages (tokens.map Token.advantage) := by
  rcases tokenAdvantages with _ | values
  · rw [Advantages, List.length_map]
    exact h.symm
  · exact h

theorem grpoTokenWeights_gradient {old new references direction : List ℝ}
    (hold : old.length = new.length) (hreferences : references.length = new.length)
    (hdirection : direction.length = new.length) (objective : Objective ℝ)
    (hlow : 0 ≤ objective.clipRangeLow) (hhigh : 0 ≤ objective.clipRangeHigh)
    (hkl : 0 ≤ objective.klCoefficient) (advantage : ℝ) (tokenAdvantages : Option (List ℝ))
    (hadvantages : (advantagesOf advantage tokenAdvantages new.length).length = new.length) :
    ∃ weights stats, grpoTokenWeights objective advantage tokenAdvantages old new references =
        .ok (weights, stats) ∧
      (GrpoSmooth objective old new references →
        (objective.importanceSampling = .sequence → ∃ constant,
          ∀ a ∈ advantagesOf advantage tokenAdvantages new.length, a = constant) →
        ∃ loss : ℝ → ℝ, (∀ x, (grpoTally objective advantage tokenAdvantages old
            (moved new direction x) references).map (fun result =>
              result.2.loss objective.klCoefficient) = .ok (loss x)) ∧
          HasDerivAt loss (weighted weights direction) 0) ∧
      WithinBound objective.clipRangeHigh objective.klCoefficient weights
        (advantagesOf advantage tokenAdvantages new.length) := by
  obtain ⟨tokens, rfl, rfl, hvalues, rfl, rfl⟩ := exists_tokens hold hadvantages hreferences
    hdirection
  rw [List.length_map] at hvalues ⊢
  have hspec := grpoTally_tokens hlow hhigh (advantages_tokens tokens hvalues)
    (fun _ => (rfl : tokens.map Token.reference = _))
  obtain ⟨tally, htally, -⟩ := hspec Token.new
  refine ⟨_, _, by rw [grpoTokenWeights, htally]; rfl, fun hsmooth hconstant => ?_, ?_⟩
  · choose tallies htallies hlosses using fun x : ℝ => hspec fun t => t.after x
    refine ⟨fun x => (tokens.map fun t => grpoLoss objective t
      (ratio tokens objective.importanceSampling (fun t => t.after x) t) (t.after x)).sum,
      fun x => ?_, ?_⟩
    · rw [moved_tokens, htallies]
      exact congrArg Except.ok (hlosses x)
    · rw [weighted_tokens]
      have hsmooth := hsmooth.smooth
      rcases hlevel : objective.importanceSampling with _ | _
      · exact sum_grpoLoss_token hsmooth hlevel
      · obtain ⟨constant, hconstant⟩ := hconstant hlevel
        refine sum_grpoLoss_sequence hsmooth hlevel fun t ht => hconstant _ ?_
        rw [hvalues]
        exact List.mem_map_of_mem ht
  · rw [hvalues, WithinBound, List.forall₂_map_left_iff, List.forall₂_map_right_iff,
      List.forall₂_same]
    exact fun t _ => (abs_weight_le hkl (Real.exp_pos _).le).1

end Retrograd.Training.Policy
