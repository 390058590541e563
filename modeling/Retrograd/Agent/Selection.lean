import Retrograd.Agent.Trajectory
import Retrograd.Training.Judge
import Retrograd.Logic.Route

/-!
# What leaves an update, and what comes back

Before a group is graded its **truncated** members are withheld: a partial response cannot be
judged as a completed one. Once the others have their rewards, the truncation policy may put
them back, each at the smallest total reward of the group.

A reward is a value of any type with the operations the source uses on it. `Float32` is the one
it runs on; the theorems are stated over an ordered group, where `+` and `-` are exact. What a
trajectory holds beyond what is read here is its `content`, which nothing changes.
-/

namespace Retrograd.Agent.Grpo

open Training (JudgeFailurePolicy JudgeBatchCounts)

/-- What the judge's checks ask of a reward. -/
class Scale (R : Type) where
  /-- Finite, and in `[0, 1]`. -/
  inUnit : R → Bool
  /-- Within the machine epsilon of each other. -/
  near : R → R → Bool

instance : Scale Float32 where
  inUnit value := value.isFinite && (0 ≤ value && value ≤ 1)
  near a b := (a - b).abs ≤ Logic.f32Epsilon

instance : Scale ℚ where
  inUnit value := 0 ≤ value && value ≤ 1
  near a b := |a - b| ≤ 1 / 2 ^ 23

/-! ### Trajectories -/

/-- One trajectory of a group, as an update handles it. -/
structure Trajectory (τ R : Type) where
  content : τ
  steps : List (Option R)
  reward : Option R
  truncated : Bool
  judgeExplanation : Option String := none

structure TrajectoryGroup (τ R : Type) where
  groupId : UInt64
  scenarioId : String
  trajectories : List (Trajectory τ R)

variable {τ R : Type}

/-- The trajectory of a rollout: all of it is content, and the rewards are its own. -/
def ofRollout (trajectory : Agent.Trajectory) : Trajectory Agent.Trajectory Float32 where
  content := trajectory
  steps := trajectory.steps.map Step.reward
  reward := trajectory.reward
  truncated := trajectory.truncated

def stepRewardSum [Zero R] [Add R] (trajectory : Trajectory τ R) : R :=
  (trajectory.steps.filterMap id).foldl (· + ·) 0

/-- What training sees for a trajectory, final reward and step rewards together. -/
def totalReward [Zero R] [Add R] (trajectory : Trajectory τ R) : R :=
  trajectory.reward.getD 0 + stepRewardSum trajectory

/-! ### Withholding and restoring -/

/-- Splits the groups the judge still has to score from the ones their environment already
did. -/
def splitEnvironmentScored (groups : List (TrajectoryGroup τ R)) :
    List (TrajectoryGroup τ R) × List (TrajectoryGroup τ R) :=
  groups.partition fun group => group.trajectories.any fun trajectory => trajectory.reward.isNone

/-- The truncated members of one group, and the others. -/
def TrajectoryGroup.cut (group : TrajectoryGroup τ R) :
    List (Trajectory τ R) × List (Trajectory τ R) :=
  group.trajectories.partition fun trajectory => trajectory.truncated

/-- Takes the truncated members out of their groups. A group left with fewer than two members
goes, whatever was taken out of it. -/
def withholdTruncatedMembers (groups : List (TrajectoryGroup τ R)) :
    List (TrajectoryGroup τ R) × List (UInt64 × List (Trajectory τ R)) :=
  let withheld := groups.filterMap fun group =>
    if group.cut.1.isEmpty then none else some (group.groupId, group.cut.1)
  let kept := groups.map fun group => { group with trajectories := group.cut.2 }
  (kept.filter fun group => 2 ≤ group.trajectories.length, withheld)

/-- `reduce(f32::min)`. -/
def minimumOf [Min R] : List R → Option R
  | [] => none
  | first :: rest => some (rest.foldl min first)

/-- A truncated member whose total is to be `minimum`. -/
def Trajectory.floored [Zero R] [Add R] [Sub R] (minimum : R) (trajectory : Trajectory τ R) :
    Trajectory τ R :=
  { trajectory with reward := some (minimum - stepRewardSum trajectory) }

/-- Puts truncated members back into a group, at its smallest total reward. -/
def TrajectoryGroup.restore [Zero R] [Add R] [Sub R] [Min R] (group : TrajectoryGroup τ R)
    (truncated : List (Trajectory τ R)) : TrajectoryGroup τ R :=
  match minimumOf (group.trajectories.map totalReward) with
  -- no sibling is left to hand out a minimum
  | none => group
  | some minimum =>
    { group with
      trajectories := group.trajectories ++ truncated.map (Trajectory.floored minimum) }

/-- Puts the truncated members back into the group found under their group's id. -/
def restoreTruncatedMembers [Zero R] [Add R] [Sub R] [Min R]
    (groups : List (TrajectoryGroup τ R)) (withheld : List (UInt64 × List (Trajectory τ R))) :
    List (TrajectoryGroup τ R) :=
  Logic.deliver TrajectoryGroup.groupId TrajectoryGroup.restore groups withheld

/-! ### Judging -/

/-- A judge's answer for one member. -/
structure Score (R : Type) where
  value : R
  valid : Bool
  explanation : Option String

/-- An error as an update reports it. `scores` is the message about an answer that is not one
valid score for each member. -/
inductive Report where
  | error (error : Error)
  | scores (scenarioId : String) (scores members : ℕ)

/-- What judging the groups of an update came to. -/
structure JudgeBatchMetrics where
  counts : JudgeBatchCounts := {}
  degenerateDropped : ℕ := 0
  lastError : Option Report := none

/-- Whether all scores of a group are the same. -/
def isDegenerate [Scale R] : List (Score R) → Bool
  | [] => true
  | first :: rest => rest.all fun score => Scale.near score.value first.value

/-- A group's answer that can be attached: one valid score in `[0, 1]` for every member. -/
def acceptable [Scale R] (group : TrajectoryGroup τ R) (scores : List (Score R)) : Bool :=
  scores.length = group.trajectories.length &&
    scores.all fun score => score.valid && Scale.inUnit score.value

/-- A member with its score. -/
def Trajectory.attach (trajectory : Trajectory τ R) (score : Score R) : Trajectory τ R :=
  { trajectory with
    reward := some score.value
    judgeExplanation := score.explanation <|> trajectory.judgeExplanation }

def TrajectoryGroup.attach (group : TrajectoryGroup τ R) (scores : List (Score R)) :
    TrajectoryGroup τ R :=
  { group with trajectories := group.trajectories.zipWith Trajectory.attach scores }

/-- Applies one group's answer. -/
def applyGroupScore [Scale R] (failure : JudgeFailurePolicy) (dropDegenerate : Bool)
    (metrics : JudgeBatchMetrics) (group : TrajectoryGroup τ R)
    (result : Except Error (List (Score R))) :
    Except Error (TrajectoryGroup τ R × JudgeBatchMetrics) :=
  let counts := metrics.counts
  match result with
  | .ok scores =>
    if acceptable group scores then
      let counts := { counts with
        scoredGroups := counts.scoredGroups + 1
        degenerateGroups := counts.degenerateGroups + if isDegenerate scores then 1 else 0 }
      if isDegenerate scores && dropDegenerate then
        -- left unrewarded, like a group the judge failed on
        .ok (group, { metrics with counts, degenerateDropped := metrics.degenerateDropped + 1 })
      else .ok (group.attach scores, { metrics with counts })
    else if failure = .fail then
      .error (.reward s!"judge returned invalid scores for group '{group.scenarioId}'")
    else
      .ok (group, { metrics with
        counts := { counts with
          invalidScores := counts.invalidScores + max (scores.countP fun score => !score.valid) 1
          droppedGroups := counts.droppedGroups + 1 }
        lastError := some
          (.scores group.scenarioId scores.length group.trajectories.length) })
  | .error error =>
    if failure = .fail then .error error
    else
      .ok (group, { metrics with
        counts := { counts with
          invalidScores := counts.invalidScores + group.trajectories.length
          droppedGroups := counts.droppedGroups + 1 }
        lastError := some (.error error) })

/-- The groups one after the other, each with its own answer. -/
def applyEach [Scale R] (failure : JudgeFailurePolicy) (dropDegenerate : Bool) :
    List (TrajectoryGroup τ R × Except Error (List (Score R))) → JudgeBatchMetrics →
      Except Error (List (TrajectoryGroup τ R) × JudgeBatchMetrics)
  | [], metrics => .ok ([], metrics)
  | (group, result) :: rest, metrics => do
    let (group, metrics) ← applyGroupScore failure dropDegenerate metrics group result
    let (groups, metrics) ← applyEach failure dropDegenerate rest metrics
    pure (group :: groups, metrics)

/-- Applies the judge's answers to the groups of an update, which sets no threshold of its
own. -/
def applyGroupScores [Scale R] (judged : List (TrajectoryGroup τ R × Except Error (List (Score R))))
    (failure : JudgeFailurePolicy) (dropDegenerate : Bool) :
    Except Error (List (TrajectoryGroup τ R) × JudgeBatchMetrics) := do
  let totalScores := (judged.map fun entry => entry.1.trajectories.length).sum
  let (groups, metrics) ← applyEach failure dropDegenerate judged
    { counts := { groups := judged.length, totalScores } }
  let dropped := metrics.counts.droppedGroups + metrics.degenerateDropped
  pure (groups, { metrics with counts := { metrics.counts with droppedGroups := dropped } })

end Retrograd.Agent.Grpo
