import Retrograd.Training.Resume

/-!
# Token weights of the policy objective

The weight of a trained token is the gradient coefficient of its negative log-probability: the
**clipped surrogate** against the behavior policy, and the k3 term against the reference policy.
-/

namespace Retrograd.Training

open Logic

/-- Whether the surrogate ratio is taken per token, or once per sequence. -/
inductive ImportanceSamplingLevel where
  | token
  | sequence
  deriving DecidableEq

/-- What defines the loss, as opposed to the schedule it is stepped on. -/
structure GrpoObjective where
  clipRangeLow : Float32
  clipRangeHigh : Float32
  klCoefficient : Float32
  lossDenominator : ℕ
  importanceSampling : ImportanceSamplingLevel

/-- Aggregate diagnostics of one clipped-surrogate optimizer step. -/
structure TokenStats where
  kl : Float32 := 0
  clipFraction : Float32 := 0
  surrogateLoss : Float32 := 0
  ratioMean : Float32 := 0
  ratioMax : Float32 := 0

def TokenStats.normalize (stats : TokenStats) (objectiveDenominator tokenCount : ℕ) : TokenStats where
  kl := stats.kl / f32OfNat (max objectiveDenominator 1)
  surrogateLoss := stats.surrogateLoss / f32OfNat (max objectiveDenominator 1)
  clipFraction := stats.clipFraction / f32OfNat (max tokenCount 1)
  ratioMean := stats.ratioMean / f32OfNat (max tokenCount 1)
  ratioMax := stats.ratioMax

/-- The statistics of two members of a chunk, together. -/
def TokenStats.add (stats later : TokenStats) : TokenStats where
  surrogateLoss := stats.surrogateLoss + later.surrogateLoss
  kl := stats.kl + later.kl
  clipFraction := stats.clipFraction + later.clipFraction
  ratioMean := stats.ratioMean + later.ratioMean
  ratioMax := maxF32 stats.ratioMax later.ratioMax

/-- `f32::clamp`. -/
def clampF32 (value low high : Float32) : Float32 :=
  if value < low then low else if high < value then high else value

def policyLogRatioLimit : Float32 := 10
def referenceLogRatioLimit : Float32 := 5
def dualClipC : Float32 := 3

/-- The gradient coefficient of one token, the value of its objective, and whether its gradient was
clipped away. -/
def clippedSurrogate (advantage ratio clipRangeLow clipRangeHigh : Float32) :
    Float32 × Float32 × Bool :=
  let clippedRatio := clampF32 ratio (1 - clipRangeLow) (1 + clipRangeHigh)
  let objective := minF32 (advantage * ratio) (advantage * clippedRatio)
  let clippedOut := (decide (0 < advantage) && decide (1 + clipRangeHigh < ratio)) ||
    (decide (advantage < 0) && decide (ratio < 1 - clipRangeLow))
  if decide (advantage < 0) && decide (dualClipC < ratio) then (0, dualClipC * advantage, true)
  else (if clippedOut then 0 else advantage * ratio, objective, clippedOut)

/-- The exponential of the mean token log-ratio. -/
def sequencePolicyRatio (oldLogprobs newLogprobs : List Float32) : Float32 :=
  let sum := ((oldLogprobs.zip newLogprobs).map fun (old, new) => toF64 new - toF64 old).foldl (· + ·) 0
  let mean := toF32 (sum / f64OfNat oldLogprobs.length)
  (clampF32 mean (-policyLogRatioLimit) policyLogRatioLimit).exp

/-- One token's weight, and what it adds to the statistics. -/
def grpoTokenWeight (objective : GrpoObjective) (advantage policyRatio new : Float32)
    (reference : Option Float32) (stats : TokenStats) : Float32 × TokenStats :=
  let (surrogate, value, clippedOut) :=
    clippedSurrogate advantage policyRatio objective.clipRangeLow objective.clipRangeHigh
  let (klWeight, klStat) : Float32 × Float32 :=
    match reference with
    | none => (0, 0)
    | some reference =>
      let logRatio := clampF32 (reference - new) (-referenceLogRatioLimit) referenceLogRatioLimit
      (objective.klCoefficient * (logRatio.exp - 1), logRatio.exp - logRatio - 1)
  (surrogate + klWeight,
    { surrogateLoss := stats.surrogateLoss + -value
      kl := stats.kl + klStat
      clipFraction := stats.clipFraction + (if clippedOut then 1 else 0)
      ratioMean := stats.ratioMean + policyRatio
      ratioMax := maxF32 stats.ratioMax policyRatio })

/-- The weights of one completion's trained tokens. A token's own advantage stands in for the
completion's where there is one, and the reference is read only under a non-zero coefficient. -/
def grpoTokenWeights (objective : GrpoObjective) (advantage : Float32)
    (tokenAdvantages : Option (List Float32))
    (oldLogprobs newLogprobs referenceLogprobs : List Float32) :
    Except Error (List Float32 × TokenStats) := do
  let sequenceRatio :=
    match objective.importanceSampling with
    | .token => none
    | .sequence => some (sequencePolicyRatio oldLogprobs newLogprobs)
  let (weights, stats) ← ((oldLogprobs.zip newLogprobs).zipIdx).foldlM
    (fun (acc : List Float32 × TokenStats) ((old, new), index) => do
      let advantage ←
        match tokenAdvantages with
        | none => pure advantage
        | some values =>
          match values[index]? with
          | some value => pure value
          | none => .error (.panic "index out of bounds")
      let policyRatio := sequenceRatio.getD
        (clampF32 (new - old) (-policyLogRatioLimit) policyLogRatioLimit).exp
      let reference : Option Float32 ←
        if objective.klCoefficient != 0 then
          match referenceLogprobs[index]? with
          | some value => pure (some value)
          | none => .error (.panic "index out of bounds")
        else pure none
      let (weight, stats) := grpoTokenWeight objective advantage policyRatio new reference acc.2
      pure (acc.1 ++ [weight], stats))
    ([], {})
  pure (weights, stats.normalize objective.lossDenominator oldLogprobs.length)

end Retrograd.Training
