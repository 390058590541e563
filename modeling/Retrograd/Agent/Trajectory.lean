import Retrograd.Agent.Chat
import Retrograd.Infer.Request
import Retrograd.Logic.Floats

/-!
# Scenarios and trajectories

What a rollout is asked to do, what bounds it, and the record it produces. A trajectory is one
token stream cut into steps; `validate` is the check every trajectory passes before it is
returned.
-/

namespace Retrograd.Agent

open Infer (Token)
open Logic

/-- What a rollout is asked to do. Of the metadata, only the reward of a verification that never
ran is read here. -/
structure Scenario where
  id : String
  system : Option String
  user : String
  rewardOnFailure : Option Float32

def Scenario.validate (scenario : Scenario) : Except Error Unit :=
  if isBlank scenario.id then .error (.invalid "scenario id must not be empty")
  else if scenario.user.isEmpty then
    .error (.invalid "scenario user message must not be empty")
  else .ok ()

/-- What bounds a rollout. A `maxRolloutSecs` of zero sets no deadline; a `maxFailedTurns` of
zero never cuts a trajectory. -/
structure RolloutLimits where
  maxTurns : ℕ
  maxNewTokensPerTurn : ℕ
  maxTrajectoryTokens : ℕ
  maxRolloutSecs : ℕ
  endOnNoToolCall : Bool
  maxFailedTurns : ℕ

def RolloutLimits.validate (limits : RolloutLimits) : Except Error Unit :=
  if limits.maxTurns = 0 ∨ limits.maxNewTokensPerTurn = 0 ∨ limits.maxTrajectoryTokens < 2 then
    .error (.invalid ("rollout limits must allow at least one turn, one generated token, and " ++
      "two total tokens"))
  else if 2 ^ 32 - 1 < limits.maxTrajectoryTokens then
    .error (.invalid "max_trajectory_tokens must fit in a 32-bit generation budget")
  else .ok ()

/-! ### Steps -/

inductive StepKind where
  | policyAction
  | toolResult
  | userTurn
  | context
  deriving DecidableEq

/-- A range of a trajectory's tokens, from where and up to where. -/
structure Step where
  kind : StepKind
  tokenRange : ℕ × ℕ
  reward : Option Float32

/-- Where a trajectory came from, recorded while it was collected. -/
structure Provenance where
  member : ℕ
  seed : UInt64
  stepMessages : List (List ℕ)
  tools : List ToolSpec
  rendering : ToolRenderingKind
  assistantProse : List String
  assistantReasoning : List String
  cutWhileReasoning : Bool
  invalidTurns : ℕ
  checkedTurns : ℕ
  normalizedTurns : ℕ
  firstNormalization : Option (ℕ × TextGap)

structure Trajectory where
  scenarioId : String
  messages : List Message
  tokens : List Token
  oldLogprobs : List Float32
  trainMask : List Bool
  steps : List Step
  reward : Option Float32
  truncated : Bool
  provenance : Option Provenance

/-! ### Validation -/

/-- The checks on one step that starts at `cursor`. -/
def validateStep (tokens : List Token) (mask : List Bool) (cursor : ℕ) (step : Step) :
    Except Error ℕ :=
  if step.tokenRange.1 ≠ cursor ∨ step.tokenRange.2 ≤ step.tokenRange.1
      ∨ tokens.length < step.tokenRange.2 then
    .error (.invalid "trajectory steps must partition the token sequence")
  else if step.kind ≠ .policyAction
      ∧ true ∈ (mask.drop step.tokenRange.1).take (step.tokenRange.2 - step.tokenRange.1) then
    .error (.invalid "only PolicyAction steps may contain trainable tokens")
  else if step.reward.any fun reward => !reward.isFinite then
    .error (.invalid "trajectory step reward must be finite")
  else .ok step.tokenRange.2

/-- The checks on a trajectory's mask and scores. -/
def Trajectory.validateScores (trajectory : Trajectory) : Except Error Unit :=
  let trained := trajectory.trainMask.count true
  if trained = 0 ∨ trajectory.oldLogprobs.length ≠ trained then
    .error (.invalid "trajectory old_logprobs must align with a non-empty train_mask")
  else if trajectory.oldLogprobs.any fun value => !value.isFinite then
    .error (.invalid "trajectory old_logprobs must all be finite")
  else if trajectory.reward.any fun reward => !reward.isFinite then
    .error (.invalid "trajectory reward must be finite")
  else .ok ()

/-- The checks on a trajectory's tokens. -/
def Trajectory.validateTokens (trajectory : Trajectory) : Except Error Unit :=
  if isBlank trajectory.scenarioId then
    .error (.invalid "trajectory scenario_id must not be empty")
  else if trajectory.tokens.length ≠ trajectory.trainMask.length then
    .error (.invalid "trajectory tokens and train_mask lengths do not match")
  else if trajectory.tokens.isEmpty || trajectory.trainMask.headD false then
    .error (.invalid "trajectory must contain an untrained first context token")
  else .ok ()

def Trajectory.validate (trajectory : Trajectory) : Except Error Unit := do
  trajectory.validateTokens
  trajectory.validateScores
  let cursor ← trajectory.steps.foldlM (validateStep trajectory.tokens trajectory.trainMask) 0
  if cursor ≠ trajectory.tokens.length then
    throw (.invalid "trajectory steps do not cover the full token sequence")

end Retrograd.Agent
