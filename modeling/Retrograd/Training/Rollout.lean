import Retrograd.Training.Config
import Retrograd.Infer.Request

/-!
# Rollouts and the row they are packed into

One sampled completion as the trainer sees it: the full token list, which of its tokens are
trained, and the behavior policy's log-probabilities of those. `RowLayout` is the geometry
every row of a run shares.
-/

namespace Retrograd.Training

open Infer (Token)

/-- One sampled rollout: the full context sequence, a token-level training mask, and the
rollout-time policy log-probabilities of the trained tokens. -/
structure Rollout where
  tokens : List Token
  trainMask : List Bool
  oldLogprobs : List Float32

/-- The number of trained tokens. -/
def Rollout.completionLen (rollout : Rollout) : ℕ := rollout.trainMask.count true

/-- The mask of a completion sampled after a prompt: everything past the prompt is trained. -/
def makeTrainMask (promptLen totalLen : ℕ) : List Bool :=
  (List.range totalLen).map fun index => promptLen ≤ index

/-- The first trained position, refused when it has no context. -/
def firstTrainIndex (tokens : List Token) (trainMask : List Bool) : Except Error ℕ :=
  if tokens.length ≠ trainMask.length then
    .error (.invalidArgument "rollout tokens and train_mask lengths do not match")
  else
    match trainMask.findIdx? id with
    | none => .error (.tokenize "rollout has no trainable token")
    | some 0 => .error (.invalidArgument "the first token of a rollout cannot be trainable")
    | some first => .ok first

/-- The last trained position. -/
def Rollout.lastTrainIndex (rollout : Rollout) : Except Error ℕ := do
  let _ ← firstTrainIndex rollout.tokens rollout.trainMask
  pure (rollout.trainMask.length - 1 - rollout.trainMask.reverse.findIdx id)

/-- Input positions needed to cover every supervised target, including untrained observation tokens
between disjoint policy segments. -/
def Rollout.trainingSpanLen (rollout : Rollout) : Except Error ℕ := do
  let first ← firstTrainIndex rollout.tokens rollout.trainMask
  let last ← rollout.lastTrainIndex
  pure (last - first + 1)

/-- How many completions of a group share their prompt in one physical micro-batch. -/
inductive SharedPrefixFanout where
  | auto
  | off
  | max
  | exact (width : ℕ)
  deriving DecidableEq

/-- How rollout requests are admitted to the generation pool. -/
inductive RolloutAdmission where
  | lockstep
  | continuous
  deriving DecidableEq

/-- Fixed geometry of every packed training row for one run. -/
structure RowLayout where
  rowWidth : ℕ
  window : ℕ
  padToken : Token
  batch : ℕ
  ubatch : ℕ
  nSeqMax : ℕ
  sharedPrefixFanout : SharedPrefixFanout
  stepsPerRow : ℕ
  rolloutAdmission : RolloutAdmission
  generationSlots : ℕ
  generationBatch : ℕ

/-- Physical ubatches gradient accumulation spans before one optimizer step. -/
def RowLayout.accumulationPeriod (layout : RowLayout) : ℕ :=
  max (layout.batch / max layout.ubatch 1) 1

/-- Generation budget left next to a prompt inside the trained window. -/
def generationRoom (layout : RowLayout) (promptLen : ℕ) : Except Error ℕ :=
  if promptLen < layout.window then .ok (min (layout.window - promptLen) (2 ^ 32 - 1))
  else .error (.invalidArgument
    s!"prompt of {promptLen} tokens leaves no room to generate in the trained window {layout.window}")

/-- A completion at or over the generation budget cannot be told from a truncated one. -/
def isTruncated (length lossDenominator : ℕ) : Bool := lossDenominator ≤ length

end Retrograd.Training
