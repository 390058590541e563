import Retrograd.Training.Rollout
import Retrograd.Logic.Wp

/-!
# What an update asks of the outside

Assembling a batch calls four things this development does not compute: the model runtime
behind the scheduler (sampling, detokenizing, scoring), the reward command and the judge. Each
is a function of a state `σ` nothing else looks into, so that **no answer is assumed of any of
them**: a call may fail, and an answer may be any value of its type.
-/

namespace Retrograd.Training

open Infer (Token Request InferError)

/-! ### Messages exchanged with the outside -/

/-- One sampled group member: the completion tokens and which of them the reasoning budget
forced. -/
structure RolloutCompletion where
  tokens : List Token
  forced : List Bool

/-- What one scheduler request produced: its completions, or the error that failed it. -/
structure RequestOutcome where
  completions : List RolloutCompletion
  error : Option InferError

/-- One line written to the reward command. -/
structure RewardRequest where
  prompt : String
  completion : String
  reference : Option String

/-- One line read from the reward command. -/
structure RewardResponse where
  reward : Float32
  judgeWeight : Option Float32

/-- A judge's answer for one group member. -/
structure Score where
  value : Float32
  valid : Bool
  explanation : Option String
  error : Option String

inductive Role where
  | system
  | user
  | assistant
  deriving DecidableEq

/-- One group member as a judge reads it, with the verdict written back into it. -/
structure JudgedTrajectory where
  scenarioId : String
  messages : List (Role × String)
  rubric : Option String
  reward : Option Float32
  explanation : Option String

structure TrajectoryGroup where
  groupId : ℕ
  scenarioId : String
  trajectories : List JudgedTrajectory

/-! ### The outside -/

/-- The calls of an update on the world around it. -/
structure Outside (σ : Type) where
  /-- Build and initialize a scheduler with room for this many queued requests. -/
  newScheduler : ℕ → σ → Except Error Unit × σ
  /-- Run requests to completion through the scheduler. -/
  runRequests : List Request → σ → Except InferError (List RequestOutcome) × σ
  detokenize : List Token → σ → Except Error String × σ
  /-- Score the tokens of each sequence from the given position on. -/
  scoreTokenSuffixBatch : List (List Token × ℕ) → σ → Except Error (List (List Float32)) × σ
  scoringStats : σ → Except Error Unit × σ
  /-- The decoded lines a reward command answers one batch of requests with. -/
  rewardLines : List RewardRequest → σ → Except Error (List RewardResponse) × σ
  /-- One answer of the judge, or one error, for every group it could be asked about. -/
  scoreGroups : List TrajectoryGroup → σ → Except Error (List (Except String (List Score))) × σ

/-- A program that runs against the outside alone. -/
abbrev OutM (σ : Type) := EStateM Error σ

/-- Makes one call. -/
def ask {σ α : Type} (call : σ → Except Error α × σ) : OutM σ α := fun s =>
  match call s with
  | (.ok a, s') => .ok a s'
  | (.error e, s') => .error e s'

/-- A check that needs no call. -/
def check {σ α : Type} (result : Except Error α) : OutM σ α :=
  match result with
  | .ok a => pure a
  | .error e => throw e

variable {σ α : Type} {P : α → Prop}

theorem returns_check {result : Except Error α} (h : ∀ a, result = .ok a → P a) :
    Logic.Returns (check result : OutM σ α) P := by
  cases result with
  | ok a => exact Logic.Returns.pure (h a rfl)
  | error e => exact Logic.Returns.throw

end Retrograd.Training
