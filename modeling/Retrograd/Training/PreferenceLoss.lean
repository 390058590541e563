import Retrograd.Training.Preference
import Retrograd.Logic.Number

/-!
# The preference losses

Every loss depends on the parameters only through the summed log-probability of each response, or
its per-token mean. One detached **coefficient** per response, written on each of its trained
tokens, therefore trains it: a chunk of pairs is scored, its pairs' terms computed, and each
response's coefficient divided by the number of pairs.

The objectives are written over any numbers, so that the program a float runs and the formula it
stands for are one definition.
-/

namespace Retrograd.Training.Preference

open Logic

variable {R : Type}

/-! ### Losses -/

/-- A loss with its parameters, which the configuration states in single precision. -/
inductive PreferenceLoss (R : Type) where
  | dpo (beta labelSmoothing : R)
  | ipo (beta : R)
  | simpo (beta gammaBetaRatio : R)
  | orpo (beta : R)

namespace PreferenceLoss

def name : PreferenceLoss R → String
  | .dpo .. => "dpo"
  | .ipo .. => "ipo"
  | .simpo .. => "simpo"
  | .orpo .. => "orpo"

def beta : PreferenceLoss R → R
  | .dpo beta _ | .ipo beta | .simpo beta _ | .orpo beta => beta

end PreferenceLoss

/-- What the objective reads of one response: its summed log-probability under the current policy,
its trained-token count, and the same sum under the reference when the loss has one. -/
structure SideScores (R : Type) where
  sum : R
  tokens : ℕ
  reference : Option R

/-- ORPO's own quantities, for the metrics. -/
structure OrpoTerms (R : Type) where
  nll : R
  logOdds : R
  /-- How many of the two means sat above the bound. -/
  clamped : ℕ

/-- One pair's loss, the coefficients that train it, and what a report reads. -/
structure PairTerms (R : Type) where
  loss : R
  /-- Per-token coefficient, before the division by the number of pairs in the step. -/
  chosenWeight : R
  rejectedWeight : R
  chosenReward : R
  rejectedReward : R
  orpo : Option (OrpoTerms R)

variable [Number R]

namespace SideScores

def count (scores : SideScores R) : R := Number.ofNat scores.tokens

def mean (scores : SideScores R) : R := scores.sum / scores.count

def referenceFor (scores : SideScores R) (loss : PreferenceLoss R) : Except Error R :=
  match scores.reference with
  | some reference => .ok reference
  | none => .error (.invalidArgument
      s!"preference loss '{loss.name}' needs a reference score for every response")

end SideScores

/-- Upper bound on a mean log-probability before `log(1 - exp(l))`. -/
def orpoMeanBound : R := -1e-6

/-- `log(1 + exp(x))`, without overflow for large `x`. -/
def softplus (x : R) : R := Number.max x 0.0 + Number.ln1p (Number.exp (-Number.abs x))

/-- `1 / (1 + exp(-x))`, evaluated on the side that does not overflow. -/
def sigmoid (x : R) : R :=
  if Number.le 0.0 x then 1.0 / (1.0 + Number.exp (-x))
  else
    let e := Number.exp x
    e / (1.0 + e)

/-- `log(p / (1 - p))` for `p = exp(l)`, and its derivative in `l`. -/
def logOdds (mean : R) : R × R :=
  let complement := -Number.expM1 mean
  (mean - Number.ln complement, 1.0 / complement)

def dpoTerms (beta epsilon : R) (chosen rejected : SideScores R) (chosenReference
    rejectedReference : R) : PairTerms R :=
  let chosenReward := beta * (chosen.sum - chosenReference)
  let rejectedReward := beta * (rejected.sum - rejectedReference)
  let margin := chosenReward - rejectedReward
  let weight := beta * ((1.0 - epsilon) * sigmoid (-margin) - epsilon * sigmoid margin)
  { loss := (1.0 - epsilon) * softplus (-margin) + epsilon * softplus margin
    chosenWeight := weight
    rejectedWeight := -weight
    chosenReward
    rejectedReward
    orpo := none }

def ipoTerms (beta : R) (chosen rejected : SideScores R) (chosenReference rejectedReference : R) :
    PairTerms R :=
  let chosenRatio := chosen.mean - chosenReference / chosen.count
  let rejectedRatio := rejected.mean - rejectedReference / rejected.count
  let gap := chosenRatio - rejectedRatio - 1.0 / (2.0 * beta)
  { loss := gap * gap
    chosenWeight := -2.0 * gap / chosen.count
    rejectedWeight := 2.0 * gap / rejected.count
    chosenReward := beta * chosenRatio
    rejectedReward := beta * rejectedRatio
    orpo := none }

def simpoTerms (beta gammaBetaRatio : R) (chosen rejected : SideScores R) : PairTerms R :=
  let margin := beta * (chosen.mean - rejected.mean - gammaBetaRatio)
  let slope := beta * sigmoid (-margin)
  { loss := softplus (-margin)
    chosenWeight := slope / chosen.count
    rejectedWeight := -slope / rejected.count
    chosenReward := beta * chosen.mean
    rejectedReward := beta * rejected.mean
    orpo := none }

/-- Past the bound the loss reads the bound, so that side's coefficient is zero. -/
def live (clamped : Bool) : R := Number.ofNat (!clamped).toNat

def orpoTerms (lambda : R) (chosen rejected : SideScores R) : PairTerms R :=
  let chosenClamped := Number.lt orpoMeanBound chosen.mean
  let rejectedClamped := Number.lt orpoMeanBound rejected.mean
  let chosenMean := Number.min chosen.mean orpoMeanBound
  let rejectedMean := Number.min rejected.mean orpoMeanBound
  let (chosenOdds, chosenSlope) := logOdds chosenMean
  let (rejectedOdds, rejectedSlope) := logOdds rejectedMean
  let z := chosenOdds - rejectedOdds
  let pull := lambda * sigmoid (-z)
  { loss := -chosenMean + lambda * softplus (-z)
    chosenWeight := live chosenClamped * (1.0 + pull * chosenSlope) / chosen.count
    rejectedWeight := live rejectedClamped * -pull * rejectedSlope / rejected.count
    chosenReward := lambda * chosenMean
    rejectedReward := lambda * rejectedMean
    orpo := some
      { nll := -chosenMean
        logOdds := z
        clamped := chosenClamped.toNat + rejectedClamped.toNat } }

/-- The terms of a loss, before they are checked to be finite. -/
def termsOf (loss : PreferenceLoss R) (chosen rejected : SideScores R) :
    Except Error (PairTerms R) :=
  match loss with
  | .dpo beta labelSmoothing =>
    match chosen.referenceFor loss, rejected.referenceFor loss with
    | .ok chosenReference, .ok rejectedReference =>
      .ok (dpoTerms beta labelSmoothing chosen rejected chosenReference rejectedReference)
    | .error e, _ | _, .error e => .error e
  | .ipo beta =>
    match chosen.referenceFor loss, rejected.referenceFor loss with
    | .ok chosenReference, .ok rejectedReference =>
      .ok (ipoTerms beta chosen rejected chosenReference rejectedReference)
    | .error e, _ | _, .error e => .error e
  | .simpo beta gammaBetaRatio => .ok (simpoTerms beta gammaBetaRatio chosen rejected)
  | .orpo beta => .ok (orpoTerms beta chosen rejected)

def PairTerms.allFinite (terms : PairTerms R) : Bool :=
  [terms.loss, terms.chosenWeight, terms.rejectedWeight, terms.chosenReward,
    terms.rejectedReward].all Number.isFinite

/-- The loss of one pair and its per-token coefficients. -/
def pairTerms (loss : PreferenceLoss R) (chosen rejected : SideScores R) :
    Except Error (PairTerms R) :=
  if chosen.tokens = 0 ∨ rejected.tokens = 0 then
    .error (.invalidArgument "a preference response must have at least one trained token")
  else if !Number.isFinite chosen.sum || !Number.isFinite rejected.sum then
    .error (.runtime "a preference response scored a non-finite log-probability")
  else
    match termsOf loss chosen rejected with
    | .error e => .error e
    | .ok terms =>
      if terms.allFinite then .ok terms
      else .error (.runtime
        s!"preference loss '{loss.name}' produced a non-finite value for a pair")

/-- A step coefficient as the single-precision weight the batch carries; `display` prints it. -/
def batchWeight (display : R → String) (coefficient : R) : Except Error R :=
  let weight := Number.narrow coefficient
  if Number.isFinite weight then .ok weight
  else .error (.invalidArgument
    ("a preference coefficient of " ++ display coefficient ++ " does not fit a training weight"))

/-! ### Chunks -/

/-- What the pairs of one step add up to. -/
structure StepTotals (R : Type) where
  pairs : ℕ
  loss : R
  margin : R
  correct : ℕ
  chosenReward : R
  rejectedReward : R
  chosenLogps : R
  rejectedLogps : R
  nll : R
  logOdds : R
  clamped : ℕ

namespace StepTotals

def zero : StepTotals R := ⟨0, 0.0, 0.0, 0, 0.0, 0.0, 0.0, 0.0, 0.0, 0.0, 0⟩

def addPair (totals : StepTotals R) (terms : PairTerms R) (chosenMean rejectedMean : R) :
    StepTotals R :=
  let margin := terms.chosenReward - terms.rejectedReward
  { pairs := totals.pairs + 1
    loss := totals.loss + terms.loss
    margin := totals.margin + margin
    correct := totals.correct + (Number.lt 0.0 margin).toNat
    chosenReward := totals.chosenReward + terms.chosenReward
    rejectedReward := totals.rejectedReward + terms.rejectedReward
    chosenLogps := totals.chosenLogps + chosenMean
    rejectedLogps := totals.rejectedLogps + rejectedMean
    nll := match terms.orpo with
      | some orpo => totals.nll + orpo.nll
      | none => totals.nll
    logOdds := match terms.orpo with
      | some orpo => totals.logOdds + orpo.logOdds
      | none => totals.logOdds
    clamped := match terms.orpo with
      | some orpo => totals.clamped + orpo.clamped
      | none => totals.clamped }

def mean (totals : StepTotals R) (sum : R) : R := sum / Number.ofNat (max totals.pairs 1)

/-- The loss of the step: the mean over its pairs. -/
def meanLoss (totals : StepTotals R) : R := totals.mean totals.loss

end StepTotals

/-- What a side of a pair scored. -/
def sideScores (sum : R) (rollout : Rollout) (reference : Option R) : SideScores R :=
  ⟨sum, rollout.completionLen, reference⟩

/-- What one pair adds to a chunk: its terms, and for either response its coefficient's share on
every trained token. `score` is the summed log-probability of the trained tokens of the two
responses under the current policy. -/
def pairWeights (display : R → String) (score : Pair → Except Error (R × R))
    (loss : PreferenceLoss R) (share : R) (row : Pair × Option (R × R)) :
    Except Error (PairTerms R × R × R × List (List R)) :=
  match score row.1 with
  | .error e => .error e
  | .ok current =>
    let chosen := sideScores current.1 row.1.chosen (row.2.map (·.1))
    let rejected := sideScores current.2 row.1.rejected (row.2.map (·.2))
    match pairTerms loss chosen rejected with
    | .error e => .error e
    | .ok terms =>
      match batchWeight display (terms.chosenWeight * share) with
      | .error e => .error e
      | .ok chosenWeight =>
        match batchWeight display (terms.rejectedWeight * share) with
        | .error e => .error e
        | .ok rejectedWeight =>
          .ok (terms, chosen.mean, rejected.mean,
            [List.replicate row.1.chosen.completionLen chosenWeight,
              List.replicate row.1.rejected.completionLen rejectedWeight])

/-- The pairs of a chunk one after another, onto the totals and the member weights so far. -/
def chunkLoop (display : R → String) (score : Pair → Except Error (R × R))
    (loss : PreferenceLoss R) (share : R) :
    List (Pair × Option (R × R)) → StepTotals R → List (List R) →
      Except Error (StepTotals R × List (List R))
  | [], totals, weights => .ok (totals, weights)
  | row :: rows, totals, weights =>
    match pairWeights display score loss share row with
    | .error e => .error e
    | .ok (terms, chosenMean, rejectedMean, members) =>
      chunkLoop display score loss share rows (totals.addPair terms chosenMean rejectedMean)
        (weights ++ members)

/-- Scores every pair under the current policy and turns the pairs' terms into weights. -/
def chunkTerms (display : R → String) (score : Pair → Except Error (R × R))
    (pairs : List (Pair × Option (R × R))) (loss : PreferenceLoss R) :
    Except Error (StepTotals R × List (List R)) :=
  chunkLoop display score loss (1.0 / Number.ofNat pairs.length) pairs .zero []

end Retrograd.Training.Preference
