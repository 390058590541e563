import Retrograd.Training.Weights
import Retrograd.Logic.Number

/-!
# The policy objective over any numbers

The token weights of PPO and of Dr. GRPO, written once over the operations of a number type: in
single precision they are **the weights the step trains with**, over the reals the formula they
stand for. A step tallies its tokens and divides the tally at the end.
-/

namespace Retrograd.Training.Policy

open Logic

/-- Numbers with the mean of a completion's log-ratios, their sum over a count, which a machine
takes in double precision. -/
class PolicyNumber (R : Type) extends Number R where
  meanLogRatio : List (R × R) → ℕ → R

instance : Number Float32 where
  ofNat := f32OfNat
  le a b := decide (a ≤ b)
  lt a b := decide (a < b)
  max := maxF32
  min := minF32
  abs := Float32.abs
  exp := Float32.exp
  ln := Float32.log
  expM1 a := Float32.exp a - 1
  ln1p a := Float32.log (1 + a)
  isFinite := Float32.isFinite
  narrow a := a

instance : PolicyNumber Float32 where
  meanLogRatio pairs count :=
    toF32 ((pairs.map fun (old, new) => toF64 new - toF64 old).foldl (· + ·) 0 / f64OfNat count)

noncomputable instance : PolicyNumber ℝ where
  meanLogRatio pairs count := (pairs.map fun (old, new) => new - old).sum / count

/-- What defines the loss. -/
structure Objective (R : Type) where
  clipRangeLow : R
  clipRangeHigh : R
  klCoefficient : R
  lossDenominator : ℕ
  importanceSampling : ImportanceSamplingLevel

section Tally

variable {R : Type} [Number R]

/-- Aggregate diagnostics of one clipped-surrogate optimizer step. -/
structure Tally (R : Type) where
  kl : R
  clipFraction : R
  surrogateLoss : R
  ratioMean : R
  ratioMax : R

def Tally.empty : Tally R :=
  ⟨Number.ofNat 0, Number.ofNat 0, Number.ofNat 0, Number.ofNat 0, Number.ofNat 0⟩

def Tally.normalize (tally : Tally R) (objectiveDenominator tokenCount : ℕ) : Tally R where
  kl := tally.kl / Number.ofNat (max objectiveDenominator 1)
  surrogateLoss := tally.surrogateLoss / Number.ofNat (max objectiveDenominator 1)
  clipFraction := tally.clipFraction / Number.ofNat (max tokenCount 1)
  ratioMean := tally.ratioMean / Number.ofNat (max tokenCount 1)
  ratioMax := tally.ratioMax

/-- `f32::clamp`. -/
def clamp (value low high : R) : R :=
  if Number.lt value low then low else if Number.lt high value then high else value

def policyLogRatioLimit : R := Number.ofNat 10
def referenceLogRatioLimit : R := Number.ofNat 5
def dualClipC : R := Number.ofNat 3

/-- The gradient coefficient of one token, the value of its objective, and whether its gradient was
clipped away. -/
def clippedSurrogate (advantage ratio clipRangeLow clipRangeHigh : R) : R × R × Bool :=
  let one : R := Number.ofNat 1
  let zero : R := Number.ofNat 0
  let clippedRatio := clamp ratio (one - clipRangeLow) (one + clipRangeHigh)
  let objective := Number.min (advantage * ratio) (advantage * clippedRatio)
  let clippedOut := (Number.lt zero advantage && Number.lt (one + clipRangeHigh) ratio) ||
    (Number.lt advantage zero && Number.lt ratio (one - clipRangeLow))
  if Number.lt advantage zero && Number.lt dualClipC ratio then (zero, dualClipC * advantage, true)
  else (if clippedOut then zero else advantage * ratio, objective, clippedOut)

/-- A token is added to the tally. -/
def Tally.record (tally : Tally R) (objective klStat ratio : R) (clippedOut : Bool) : Tally R where
  surrogateLoss := tally.surrogateLoss + -objective
  kl := tally.kl + klStat
  clipFraction := tally.clipFraction + (if clippedOut then Number.ofNat 1 else Number.ofNat 0)
  ratioMean := tally.ratioMean + ratio
  ratioMax := Number.max tally.ratioMax ratio

end Tally

variable {R : Type} [PolicyNumber R]

/-! ### PPO -/

/-- One token's weight, the k3 term anchored to the rollout policy. -/
def ppoTokenWeight (clipRange klCoefficient old new advantage : R) (tally : Tally R) : R × Tally R :=
  let logRatio := clamp (new - old) (-policyLogRatioLimit) policyLogRatioLimit
  let ratio := Number.exp logRatio
  let (surrogate, objective, clippedOut) := clippedSurrogate advantage ratio clipRange clipRange
  let klLogRatio := clamp (new - old) (-referenceLogRatioLimit) referenceLogRatioLimit
  let klRatio := Number.exp klLogRatio
  (surrogate + klCoefficient * (Number.ofNat 1 - klRatio),
    tally.record objective ((klRatio - Number.ofNat 1) - klLogRatio) ratio clippedOut)

/-- One step of the loop over a completion's tokens. -/
def ppoStep (clipRange klCoefficient : R) (acc : List R × Tally R) (token : (R × R) × R) :
    List R × Tally R :=
  let ((old, new), advantage) := token
  let (weight, tally) := ppoTokenWeight clipRange klCoefficient old new advantage acc.2
  (acc.1 ++ [weight], tally)

/-- The weights, and the tally before it is divided. -/
def ppoTally (advantages oldLogprobs newLogprobs : List R) (clipRange klCoefficient : R) :
    List R × Tally R :=
  ((oldLogprobs.zip newLogprobs).zip advantages).foldl (ppoStep clipRange klCoefficient) ([], .empty)

def ppoTokenWeights (advantages oldLogprobs newLogprobs : List R) (clipRange klCoefficient : R) :
    List R × Tally R :=
  let (weights, tally) := ppoTally advantages oldLogprobs newLogprobs clipRange klCoefficient
  (weights, tally.normalize oldLogprobs.length oldLogprobs.length)

/-! ### Dr. GRPO -/

/-- The exponential of the mean token log-ratio. -/
def sequencePolicyRatio (oldLogprobs newLogprobs : List R) : R :=
  let mean := PolicyNumber.meanLogRatio (oldLogprobs.zip newLogprobs) oldLogprobs.length
  Number.exp (clamp mean (-policyLogRatioLimit) policyLogRatioLimit)

/-- One token's weight, the k3 term anchored to the reference. -/
def grpoTokenWeight (objective : Objective R) (advantage policyRatio new : R) (reference : Option R)
    (tally : Tally R) : R × Tally R :=
  let (surrogate, value, clippedOut) :=
    clippedSurrogate advantage policyRatio objective.clipRangeLow objective.clipRangeHigh
  let (klWeight, klStat) : R × R :=
    match reference with
    | none => (Number.ofNat 0, Number.ofNat 0)
    | some reference =>
      let logRatio := clamp (reference - new) (-referenceLogRatioLimit) referenceLogRatioLimit
      (objective.klCoefficient * (Number.exp logRatio - Number.ofNat 1),
        Number.exp logRatio - logRatio - Number.ofNat 1)
  (surrogate + klWeight, tally.record value klStat policyRatio clippedOut)

/-- `values[index]`. -/
def read (values : List R) (index : ℕ) : Except Error R :=
  match values[index]? with
  | some value => .ok value
  | none => .error (.panic "index out of bounds")

/-- A token's own advantage where there is one, else the completion's. -/
def advantageAt (advantage : R) (tokenAdvantages : Option (List R)) (index : ℕ) : Except Error R :=
  match tokenAdvantages with
  | none => .ok advantage
  | some values => read values index

/-- The reference is read only under a non-zero coefficient. -/
def referenceAt (referenceLogprobs : List R) (useKl : Bool) (index : ℕ) : Except Error (Option R) :=
  if useKl then some <$> read referenceLogprobs index else .ok none

/-- One step of the loop over a completion's tokens. -/
def grpoStep (objective : Objective R) (advantage : R) (tokenAdvantages : Option (List R))
    (referenceLogprobs : List R) (sequenceRatio : Option R) (useKl : Bool)
    (acc : List R × Tally R) (token : (R × R) × ℕ) : Except Error (List R × Tally R) := do
  let ((old, new), index) := token
  let advantage ← advantageAt advantage tokenAdvantages index
  let policyRatio := sequenceRatio.getD
    (Number.exp (clamp (new - old) (-policyLogRatioLimit) policyLogRatioLimit))
  let reference ← referenceAt referenceLogprobs useKl index
  let (weight, tally) := grpoTokenWeight objective advantage policyRatio new reference acc.2
  .ok (acc.1 ++ [weight], tally)

section Grpo

variable [BEq R] (objective : Objective R) (advantage : R) (tokenAdvantages : Option (List R))
  (oldLogprobs newLogprobs referenceLogprobs : List R)

/-- The weights, and the tally before it is divided. -/
def grpoTally : Except Error (List R × Tally R) :=
  let useKl := objective.klCoefficient != Number.ofNat 0
  let sequenceRatio :=
    match objective.importanceSampling with
    | .token => none
    | .sequence => some (sequencePolicyRatio oldLogprobs newLogprobs)
  (oldLogprobs.zip newLogprobs).zipIdx.foldlM
    (grpoStep objective advantage tokenAdvantages referenceLogprobs sequenceRatio useKl)
    ([], .empty)

def grpoTokenWeights : Except Error (List R × Tally R) := do
  let (weights, tally) ← grpoTally objective advantage tokenAdvantages oldLogprobs newLogprobs
    referenceLogprobs
  .ok (weights, tally.normalize objective.lossDenominator oldLogprobs.length)

end Grpo

/-! ### Single precision -/

def singlePrecision (objective : GrpoObjective) : Objective Float32 :=
  ⟨objective.clipRangeLow, objective.clipRangeHigh, objective.klCoefficient,
    objective.lossDenominator, objective.importanceSampling⟩

def Tally.stats (tally : Tally Float32) : TokenStats :=
  ⟨tally.kl, tally.clipFraction, tally.surrogateLoss, tally.ratioMean, tally.ratioMax⟩

theorem ofNat_one : (Number.ofNat 1 : Float32) = 1 := by decide +kernel
theorem ofNat_zero : (Number.ofNat 0 : Float32) = 0 := by decide +kernel
theorem ofNat_ten : (Number.ofNat 10 : Float32) = 10 := by decide +kernel
theorem ofNat_five : (Number.ofNat 5 : Float32) = 5 := by decide +kernel
theorem ofNat_three : (Number.ofNat 3 : Float32) = 3 := by decide +kernel

theorem clamp_float32 (value low high : Float32) : clamp value low high = clampF32 value low high := by
  simp only [clamp, clampF32, Number.lt, decide_eq_true_eq]

theorem clippedSurrogate_float32 (advantage ratio low high : Float32) :
    clippedSurrogate advantage ratio low high = Training.clippedSurrogate advantage ratio low high := by
  simp only [clippedSurrogate, Training.clippedSurrogate, ofNat_one, ofNat_zero, clamp_float32,
    Policy.dualClipC, ofNat_three, Training.dualClipC]
  rfl

theorem sequencePolicyRatio_float32 (oldLogprobs newLogprobs : List Float32) :
    sequencePolicyRatio oldLogprobs newLogprobs =
      Training.sequencePolicyRatio oldLogprobs newLogprobs := by
  simp only [sequencePolicyRatio, Training.sequencePolicyRatio, clamp_float32,
    Policy.policyLogRatioLimit, ofNat_ten, Training.policyLogRatioLimit, PolicyNumber.meanLogRatio]
  rfl

theorem grpoTokenWeight_float32 (objective : GrpoObjective) (advantage ratio new : Float32)
    (reference : Option Float32) (tally : Tally Float32) :
    (grpoTokenWeight (singlePrecision objective) advantage ratio new reference tally).map id Tally.stats =
      Training.grpoTokenWeight objective advantage ratio new reference tally.stats := by
  cases reference <;>
  simp only [grpoTokenWeight, Training.grpoTokenWeight, clippedSurrogate_float32, clamp_float32,
    Policy.referenceLogRatioLimit, ofNat_five, ofNat_one, ofNat_zero,
    Training.referenceLogRatioLimit, singlePrecision] <;>
  rfl

/-- A loop over one kind of accumulator follows a loop over another, step by step. -/
theorem foldlM_map {α β γ : Type} {f : β → α → Except Error β} {g : γ → α → Except Error γ}
    {image : β → γ} (h : ∀ acc a, (f acc a).map image = g (image acc) a) (l : List α) (acc : β) :
    (l.foldlM f acc).map image = l.foldlM g (image acc) := by
  induction l generalizing acc with
  | nil => rfl
  | cons a l ih =>
    rw [List.foldlM_cons, List.foldlM_cons, ← h]
    cases hstep : f acc a with
    | error error => rfl
    | ok next => exact ih next

theorem map_normalize (denominator count : ℕ) (x : Except Error (List Float32 × Tally Float32)) :
    Except.map (Prod.map id Tally.stats)
        (x >>= fun (weights, tally) => .ok (weights, tally.normalize denominator count)) =
      x.map (Prod.map id Tally.stats) >>= fun (weights, stats) =>
        pure (weights, stats.normalize denominator count) := by
  cases x <;> rfl

/-- In single precision these are the weights the step trains with. -/
theorem grpoTokenWeights_float32 (objective : GrpoObjective) (advantage : Float32)
    (tokenAdvantages : Option (List Float32))
    (oldLogprobs newLogprobs referenceLogprobs : List Float32) :
    (grpoTokenWeights (singlePrecision objective) advantage tokenAdvantages oldLogprobs newLogprobs
        referenceLogprobs).map (Prod.map id Tally.stats) =
      Training.grpoTokenWeights objective advantage tokenAdvantages oldLogprobs newLogprobs
        referenceLogprobs := by
  have hempty : (([], {}) : List Float32 × TokenStats) = Prod.map id Tally.stats ([], .empty) := by
    simp only [Prod.map, Tally.stats, Tally.empty, ofNat_zero, id]
  have hkl : ((singlePrecision objective).klCoefficient != Number.ofNat 0) = (objective.klCoefficient != 0) := by
    rw [ofNat_zero]
    rfl
  have hlevel : (singlePrecision objective).importanceSampling = objective.importanceSampling := rfl
  have hratio (log : Float32) : Number.exp (clamp log (-policyLogRatioLimit) policyLogRatioLimit) =
      (clampF32 log (-Training.policyLogRatioLimit) Training.policyLogRatioLimit).exp := by
    rw [clamp_float32, policyLogRatioLimit, ofNat_ten]
    rfl
  have hloop (ratio : Option Float32) (useKl : Bool) (step) (h) :=
    @foldlM_map _ _ _ (grpoStep (singlePrecision objective) advantage tokenAdvantages referenceLogprobs ratio
      useKl) step (Prod.map id Tally.stats) h (oldLogprobs.zip newLogprobs).zipIdx ([], .empty)
  unfold grpoTokenWeights grpoTally Training.grpoTokenWeights
  simp only [hempty, hkl, hlevel, sequencePolicyRatio_float32]
  cases objective.importanceSampling
  on_goal 2 =>
    rw [← hloop (some (Training.sequencePolicyRatio oldLogprobs newLogprobs))
      (objective.klCoefficient != 0)]
    exact map_normalize _ _ _
  on_goal 1 =>
    rw [← hloop none (objective.klCoefficient != 0)]
    exact map_normalize _ _ _
  all_goals
    rintro ⟨weights, tally⟩ ⟨⟨old, new⟩, index⟩
    have hrecord (advantage ratio : Float32) (reference : Option Float32) :=
      grpoTokenWeight_float32 objective advantage ratio new reference tally
    simp only [grpoStep, advantageAt, referenceAt, hratio, read, ← hrecord, Prod.map, id]
    generalize (objective.klCoefficient != 0) = useKl
    generalize referenceLogprobs[index]? = reference
    rcases tokenAdvantages with _ | values
    · cases useKl <;> cases reference <;> rfl
    · dsimp only
      generalize values[index]? = value
      cases value <;> cases useKl <;> cases reference <;> rfl

end Retrograd.Training.Policy
