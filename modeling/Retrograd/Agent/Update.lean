import Retrograd.Agent.Selection

/-!
# One GRPO update of an agent

An update rolls out a group for each of its scenarios, withholds and grades every group on its
own, and folds what came of them together: `settleUpdate` is that pass, from the groups as they
were rolled out to the groups that train and the `DropBreakdown` that says where the other
rollouts went. `checkDroppedFraction` then decides whether the update trains.
-/

namespace Retrograd.Agent.Grpo

open Training (JudgeFailurePolicy)

variable {τ R : Type}

/-! ### Rolling out a group -/

/-- Why a single rollout died. -/
inductive FailureKind where
  | tool
  | policy
  | other
  deriving DecidableEq

def failureKind : Error → FailureKind
  | .tool _ | .sandbox _ => .tool
  | .core _ | .policyStopped | .policyTask _ | .policyGeneration _ => .policy
  | .invalid _ | .rewrote .. | .reward _ => .other

structure RolloutFailures where
  tool : ℕ := 0
  policy : ℕ := 0
  other : ℕ := 0

namespace RolloutFailures

def total (failures : RolloutFailures) : ℕ :=
  failures.tool + failures.policy + failures.other

def record (failures : RolloutFailures) : FailureKind → RolloutFailures
  | .tool => { failures with tool := failures.tool + 1 }
  | .policy => { failures with policy := failures.policy + 1 }
  | .other => { failures with other := failures.other + 1 }

def merge (failures more : RolloutFailures) : RolloutFailures where
  tool := failures.tool + more.tool
  policy := failures.policy + more.policy
  other := failures.other + more.other

end RolloutFailures

/-- What a group rollout produced. There is no group where fewer than two members survived. -/
structure GroupOutcome (τ R : Type) where
  group : Option (TrajectoryGroup τ R)
  attempted : ℕ
  failures : RolloutFailures
  lastError : Option Error

/-- The bytes of a 64-bit word, least significant first. -/
def leBytes (word : UInt64) : List UInt8 :=
  (List.range 8).map fun i => (word >>> (8 * i).toUInt64).toUInt8

/-- FNV-1a over a scenario's id and the seed of its group. -/
def stableGroupId (scenarioId : String) (updateSeed : UInt64) : UInt64 :=
  (scenarioId.toUTF8.toList ++ leBytes updateSeed).foldl
    (fun hash byte => (hash ^^^ byte.toUInt64) * 0x100000001b3) 0xcbf29ce484222325

/-- What the rollouts of one group came to: an error that stopped all of them, or for each of
its members a trajectory or the error the member died of. -/
abbrev Rollouts (τ R : Type) (groupSize : ℕ) :=
  Except Error { results : List (Except Error (Trajectory τ R)) // results.length = groupSize }

/-- The trajectories that came back. -/
def trajectoriesOf (results : List (Except Error (Trajectory τ R))) : List (Trajectory τ R) :=
  results.filterMap Except.toOption

/-- Counts a member that died. -/
def noteFailure (seen : RolloutFailures × Option Error) (result : Except Error (Trajectory τ R)) :
    RolloutFailures × Option Error :=
  match result with
  | .ok _ => seen
  | .error error => (seen.1.record (failureKind error), some error)

/-- The failures among the members, and the last of them. -/
def failuresOf (results : List (Except Error (Trajectory τ R))) :
    RolloutFailures × Option Error :=
  results.foldl noteFailure ({}, none)

/-- A group is scored by its environment or by the judge, never half by each. -/
def normalizeRewards [Zero R] (trajectories : List (Trajectory τ R)) : List (Trajectory τ R) :=
  if trajectories.any fun trajectory => trajectory.reward.isSome then
    trajectories.map fun trajectory => { trajectory with reward := some (trajectory.reward.getD 0) }
  else trajectories

/-- Collects a whole group. Individual members may die without taking the update with them. -/
def rolloutGroup [Zero R] {groupSize : ℕ} (scenarioId : String) (baseSeed : UInt64)
    (rollouts : Rollouts τ R groupSize) : GroupOutcome τ R :=
  match rollouts with
  | .error error =>
    { group := none
      attempted := groupSize
      failures := (List.range groupSize).foldl
        (fun failures _ => failures.record (failureKind error)) {}
      lastError := some error }
  | .ok ⟨results, _⟩ =>
    let (failures, lastError) := failuresOf results
    let trajectories := normalizeRewards (trajectoriesOf results)
    { group :=
        if 2 ≤ trajectories.length then
          some { groupId := stableGroupId scenarioId baseSeed, scenarioId, trajectories }
        else none
      attempted := groupSize
      failures
      lastError }

/-! ### Collecting -/

/-- A judge's answer about a group, once its task has ended. -/
abbrev Verdict (R : Type) := Except Error (List (Score R))

/-- One scenario of an update, with what its rollouts came to and what the judge would answer
about them: the verdict, or how its task failed. A run without a judge has none. -/
structure Selected (τ R : Type) (groupSize : ℕ) where
  scenarioId : String
  rollouts : Rollouts τ R groupSize
  reward : Option (Except Error (Verdict R))

/-- One collected group, graded the way an update grades it. -/
structure GroupScoring (τ R : Type) where
  withheld : List (UInt64 × List (Trajectory τ R))
  judged : Option (TrajectoryGroup τ R × Verdict R)
  environmentScored : Option (TrajectoryGroup τ R)

/-- The refusal of a run without a judge. -/
def unjudged : Error :=
  .reward <| "this run has no judge and the environment scored none of the group's " ++
    "trajectories, so nothing grades them"

/-- Truncated members are withheld, a group its environment graded is kept out of the judge's
hands, and the rest goes to the judge. -/
def scoreGroup (group : Option (TrajectoryGroup τ R)) (reward : Option (Except Error (Verdict R))) :
    Except Error (GroupScoring τ R) := do
  let (groups, withheld) := withholdTruncatedMembers group.toList
  let (judged, environmentScored) := splitEnvironmentScored groups
  let environmentScored := environmentScored.getLast?
  match judged.getLast?, reward with
  | none, _ => pure { withheld, judged := none, environmentScored }
  | some group, none =>
    pure { withheld, judged := some (group, .error unjudged), environmentScored }
  | some group, some answer =>
    let verdict ← answer
    pure { withheld, judged := some (group, verdict), environmentScored }

structure CollectedGroup (τ R : Type) where
  attempted : ℕ
  failures : RolloutFailures
  lastError : Option Error
  truncated : ℕ
  scoring : GroupScoring τ R

def collectAndStartJudge (outcome : GroupOutcome τ R)
    (reward : Option (Except Error (Verdict R))) : Except Error (CollectedGroup τ R) := do
  let trajectories := outcome.group.toList.flatMap TrajectoryGroup.trajectories
  let scoring ← scoreGroup outcome.group reward
  pure
    { attempted := outcome.attempted
      failures := outcome.failures
      lastError := outcome.lastError
      truncated := trajectories.countP fun trajectory => trajectory.truncated
      scoring }

/-- Where an update's rollouts went. -/
structure DropBreakdown where
  /-- Rollouts that died mid-way and produced no trajectory at all. -/
  failed : ℕ := 0
  /-- Trajectories that came back cut short. -/
  truncated : ℕ := 0
  /-- Trajectories that came back whole but never got a reward. -/
  unscored : ℕ := 0
  deriving DecidableEq

/-- What one update's rollouts produced, folded out of the groups. -/
structure Collected (τ R : Type) where
  attempted : ℕ := 0
  failures : RolloutFailures := {}
  lastError : Option Error := none
  breakdown : DropBreakdown := {}
  withheld : List (UInt64 × List (Trajectory τ R)) := []
  judged : List (TrajectoryGroup τ R × Verdict R) := []
  environmentScored : List (TrajectoryGroup τ R) := []

def Collected.add (c : Collected τ R) (outcome : CollectedGroup τ R) : Collected τ R where
  attempted := c.attempted + outcome.attempted
  failures := c.failures.merge outcome.failures
  lastError := outcome.lastError <|> c.lastError
  breakdown := { c.breakdown with truncated := c.breakdown.truncated + outcome.truncated }
  withheld := c.withheld ++ outcome.scoring.withheld
  judged := c.judged ++ outcome.scoring.judged.toList
  environmentScored := c.environmentScored ++ outcome.scoring.environmentScored.toList

def collect (outcomes : List (CollectedGroup τ R)) : Collected τ R :=
  outcomes.foldl Collected.add {}

/-! ### Settling an update -/

/-- What becomes of a member that ran out of budget mid-response. -/
inductive TruncationPolicy where
  | drop
  | minReward
  deriving DecidableEq

/-- What an agent's GRPO loop is configured with. -/
structure AgentGrpoConfig where
  groupSize : ℕ
  seed : UInt64
  judgeFailure : JudgeFailurePolicy
  maxDroppedFraction : Float32
  dropDegenerateGroups : Bool
  skipEmptyUpdates : Bool
  truncation : TruncationPolicy

/-- The seed of a group of an update. -/
def AgentGrpoConfig.groupSeed (config : AgentGrpoConfig) (update : UInt32) (offset : ℕ) : UInt64 :=
  config.seed + (update.toUInt64 <<< 32) + offset.toUInt64 * config.groupSize.toUInt64

variable [Zero R] (config : AgentGrpoConfig)

/-- The groups of an update as they were rolled out, each with the judge's answer about it. -/
def rolledOut (update : UInt32) (selected : List (Selected τ R config.groupSize)) :
    List (GroupOutcome τ R × Option (Except Error (Verdict R))) :=
  selected.mapIdx fun offset scenario =>
    (rolloutGroup scenario.scenarioId (config.groupSeed update offset) scenario.rollouts,
      scenario.reward)

/-- Rolls the scenarios of an update out, and collects them. -/
def collectUpdate (update : UInt32) (selected : List (Selected τ R config.groupSize)) :
    Except Error (Collected τ R) := do
  if config.groupSize < 2 then throw (.invalid "rollout group_size must be at least 2")
  let outcomes ← (rolledOut config update selected).mapM fun (outcome, reward) =>
    collectAndStartJudge outcome reward
  pure (collect outcomes)

omit [Zero R] in
/-- The groups with their verdicts applied. -/
def applyVerdicts [Scale R] (collected : Collected τ R) :
    Except Error (List (TrajectoryGroup τ R) × JudgeBatchMetrics) :=
  if collected.judged.isEmpty then .ok ([], {})
  else applyGroupScores collected.judged config.judgeFailure config.dropDegenerateGroups

/-- An update once its groups are graded: what trains, and where the rest went. -/
structure Settled (τ R : Type) where
  attempted : ℕ
  breakdown : DropBreakdown
  trained : ℕ
  groups : List (TrajectoryGroup τ R)
  reportedError : Option Report

omit [Zero R] in
/-- A subtraction that must not go below zero. -/
def checkedSub (a b : ℕ) : Except Error ℕ :=
  if b ≤ a then .ok (a - b) else .error (.core "attempt to subtract with overflow")

/-- Accounts for every rollout of an update whose judged groups have their verdicts. -/
def account [Add R] [Sub R] [Min R] (collected : Collected τ R)
    (judged : List (TrajectoryGroup τ R)) (metrics : JudgeBatchMetrics) :
    Except Error (Settled τ R) := do
  let failed := collected.failures.total
  let graded := (judged ++ collected.environmentScored).filter fun group =>
    group.trajectories.all fun trajectory => trajectory.reward.isSome
  let groups :=
    if config.truncation = .minReward then restoreTruncatedMembers graded collected.withheld
    else graded
  let trained := (groups.map fun group => group.trajectories.length).sum
  -- a truncated member that was put back did not cost the update anything
  let truncated ← checkedSub collected.breakdown.truncated <|
    (groups.flatMap TrajectoryGroup.trajectories).countP fun trajectory => trajectory.truncated
  let unscored := collected.attempted - failed - truncated - trained
  pure
    { attempted := collected.attempted
      breakdown := { failed, truncated, unscored }
      trained
      groups
      reportedError := collected.lastError.map Report.error <|> metrics.lastError }

/-- One update up to the decision whether it trains. -/
def settleUpdate [Add R] [Sub R] [Min R] [Scale R] (update : UInt32)
    (selected : List (Selected τ R config.groupSize)) : Except Error (Settled τ R) := do
  let collected ← collectUpdate config update selected
  let (judged, metrics) ← applyVerdicts config collected
  account config collected judged metrics

end Retrograd.Agent.Grpo
