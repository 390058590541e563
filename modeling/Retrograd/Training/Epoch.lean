import Retrograd.Training.Packing
import Retrograd.Training.Weights

/-!
# One epoch over a batch of rollouts

The slots of a batch are visited in a shuffled order. A **dead** slot advances the scheduler without
optimizing; the **live** ones keep their order and are grouped into optimizer chunks, each of which is
trained as one weighted transaction with its members' own data.
-/

namespace Retrograd.Training

open Infer (Token)
open Logic

/-! ### What is trained -/

/-- Everything one epoch needs about a batch of rollouts. Indices are shared by every list;
`referencePositions` doubles as the liveness mask, `none` marking a filtered slot. -/
structure EpochBatch where
  rollouts : List Rollout
  groupIds : List ℕ
  advantages : List Float32
  /-- Per-token credit; empty when there are no intermediate returns. -/
  tokenAdvantages : List (Option (List Float32))
  referencePositions : List (Option ℕ)
  /-- Frozen-reference rows in `referencePositions` order; empty when the reference pass was
  skipped. -/
  referenceRows : List (List Float32)
  rolloutEvals : List ℕ

/-- One member of an optimizer chunk. -/
structure ChunkMember where
  groupId : ℕ
  rollout : Rollout
  advantage : Float32
  tokenAdvantages : Option (List Float32)
  /-- Frozen-reference logprobs of the rollout's trainable tokens. -/
  referenceLogprobs : List Float32

instance : PackMember ChunkMember where
  groupId := ChunkMember.groupId
  rollout := ChunkMember.rollout

structure GrpoStepParams where
  objective : GrpoObjective
  schedulerTotalSteps : ℕ

structure TrainMetrics where
  epoch : ℕ := 0
  epochComplete : Bool := false
  globalStep : ℕ := 0
  trainLoss : Float32 := 0
  evalLoss : Float32 := 0
  tokensPerSecond : Float32 := 0
  learningRate : Float32 := 0

/-- The calls of an epoch on the engine, and on the callback that watches it. -/
structure Trainer (σ : Type) where
  advanceSchedulerSteps : ℕ → σ → Except Error ℕ × σ
  scoreTokenSuffix : List Token → ℕ → σ → Except Error (List Float32) × σ
  supportsSharedPrefixPackedTraining : σ → Except Error Bool × σ
  /-- Train rollouts under their weights, a row each: the loss denominator and the scheduler's
  horizon go with them. The flag is false when the callback asked to stop. -/
  trainWeighted : RowLayout → List (Rollout × List Float32) → ℕ → ℕ → σ →
    Except Error (TrainMetrics × Bool) × σ
  /-- Train rollouts packed into one physical micro-batch, one of so many passes. -/
  trainPackedSequences : RowLayout → List (ChunkMember × List Float32) → ℕ → ℕ → ℕ → σ →
    Except Error (TrainMetrics × Bool) × σ
  onProgress : TrainMetrics → σ → Except Error Bool × σ

/-- `l[i]`. -/
def indexed {α : Type} (l : List α) (i : ℕ) : Except Error α :=
  match l[i]? with
  | some a => .ok a
  | none => .error (.panic "index out of bounds")

/-! ### Chunks -/

/-- The ranges of the slots from `position` on, of which the first begins at `start` with `budget`
spent. -/
def chunkLoop (evals : List ℕ) (period : ℕ) : List ℕ → ℕ → ℕ → ℕ → Except Error (List (ℕ × ℕ))
  | [], position, start, _ => .ok (if start < position then [(start, position)] else [])
  | index :: rest, position, start, budget => do
    let cost ← indexed evals index
    if start < position ∧ period < budget + cost then
      let chunks ← chunkLoop evals period rest (position + 1) position cost
      .ok ((start, position) :: chunks)
    else chunkLoop evals period rest (position + 1) start (budget + cost)

/-- Consecutive rollouts join a chunk while their evaluations fit one accumulation period; one
larger than the period is a chunk of its own. -/
def chunkByPeriod (indices evals : List ℕ) (period : ℕ) : Except Error (List (ℕ × ℕ)) :=
  chunkLoop evals period indices 0 0 0

/-- The members of every prompt group, and the groups in the order in which they first appear. -/
def groupLoop (groupIds : List ℕ) (rollouts : ℕ) :
    List ℕ → List (ℕ × List ℕ) → List ℕ → Except Error (List (ℕ × List ℕ) × List ℕ)
  | [], byGroup, groupOrder => .ok (byGroup, groupOrder)
  | index :: rest, byGroup, groupOrder =>
    if rollouts ≤ index then .error (.overflow "optimizer order index is out of range")
    else do
      let id ← indexed groupIds index
      let groupOrder := if (byGroup.lookup id).isSome then groupOrder else groupOrder ++ [id]
      groupLoop groupIds rollouts rest (entryPush byGroup id index) groupOrder

/-- The groups, taken out one by one. -/
def takeGroups : List ℕ → List (ℕ × List ℕ) → Except Error (List (List ℕ))
  | [], _ => .ok []
  | id :: groupOrder, byGroup =>
    match byGroup.lookup id with
    | none => .error (.panic "group was inserted")
    | some members => do
      let rest ← takeGroups groupOrder (byGroup.filter fun entry => entry.1 != id)
      .ok (members :: rest)

/-- Optimizer chunks: by period, or one a prompt group when prompts are shared. -/
def groupedOptimizerChunks (liveOrder groupIds : List ℕ) (rollouts : List Rollout)
    (evals : List ℕ) (layout : RowLayout) : Except Error (List (List ℕ)) :=
  if groupIds.length ≠ rollouts.length ∨ evals.length ≠ rollouts.length then
    .error (.invalidArgument "optimizer chunk metadata does not align")
  else if layout.sharedPrefixFanout = .off then do
    let ranges ← chunkByPeriod liveOrder evals layout.accumulationPeriod
    .ok (ranges.map fun range => (liveOrder.drop range.1).take (range.2 - range.1))
  else do
    -- a reward group is one logical optimizer update
    let (byGroup, groupOrder) ← groupLoop groupIds rollouts.length liveOrder [] []
    takeGroups groupOrder byGroup

/-- The frozen-reference logprobs of one slot. -/
def EpochBatch.reference (batch : EpochBatch) (index : ℕ) : Except Error (List Float32) :=
  if batch.referenceRows.isEmpty then .ok []
  else do
    match ← indexed batch.referencePositions index with
    | none => .error (.panic "live rollouts carry a reference row")
    | some position => indexed batch.referenceRows position

/-- The data of one slot, handed to its chunk. -/
def EpochBatch.member (batch : EpochBatch) (index : ℕ) : Except Error ChunkMember := do
  let groupId ← indexed batch.groupIds index
  let rollout ← indexed batch.rollouts index
  let advantage ← indexed batch.advantages index
  let referenceLogprobs ← batch.reference index
  pure
    { groupId
      rollout
      advantage
      tokenAdvantages := batch.tokenAdvantages[index]?.join
      referenceLogprobs }

/-! ### Steps -/

section Steps

variable {σ : Type} (trainer : Trainer σ)

/-- The policy's scores of a rollout's trained tokens. -/
def scoreTrainMask (rollout : Rollout) : OutM σ (List Float32) := do
  let first ← check (firstTrainIndex rollout.tokens rollout.trainMask)
  let suffix ← ask (trainer.scoreTokenSuffix rollout.tokens first)
  pure (((List.range' first (rollout.tokens.length - first)).zip suffix).filterMap fun entry =>
    if rollout.trainMask.getD entry.1 false then some entry.2 else none)

/-- Rollouts sampled with deferred policy scoring must be scored before an optimizer step. -/
def requireScoredRollout (rollout : Rollout) : Except Error Unit := do
  let _ ← firstTrainIndex rollout.tokens rollout.trainMask
  if rollout.oldLogprobs.length ≠ rollout.completionLen then
    .error (.invalidArgument "rollout is missing its behavior-policy log-probabilities")
  else pure ()

/-- The weights of one member, under the current policy. -/
def memberWeights (objective : GrpoObjective) (reuseBehaviorLogprobs : Bool)
    (member : ChunkMember) : OutM σ (List Float32 × TokenStats) := do
  check (requireScoredRollout member.rollout)
  if member.tokenAdvantages.any fun values => values.length != member.rollout.completionLen then
    throw (.invalidArgument "token advantages do not align with the rollout train_mask")
  let current ←
    if reuseBehaviorLogprobs then pure member.rollout.oldLogprobs
    else scoreTrainMask trainer member.rollout
  check (grpoTokenWeights objective member.advantage member.tokenAdvantages
    member.rollout.oldLogprobs current member.referenceLogprobs)

/-- The weights of every member of a chunk, and their statistics together. -/
def chunkWeights (objective : GrpoObjective) (reuseBehaviorLogprobs : Bool) :
    List ChunkMember → TokenStats → OutM σ (List (List Float32) × TokenStats)
  | [], stats => pure ([], stats)
  | member :: chunk, stats => do
    let (weights, memberStats) ← memberWeights trainer objective reuseBehaviorLogprobs member
    let (rest, stats) ← chunkWeights objective reuseBehaviorLogprobs chunk (stats.add memberStats)
    pure (weights :: rest, stats)

/-- The passes of a packed chunk, until one is asked to be the last. -/
def trainPasses (layout : RowLayout) (chunk : List (ChunkMember × List Float32))
    (params : GrpoStepParams) (passes : ℕ) :
    List (ℕ × ℕ) → TrainMetrics → OutM σ (TrainMetrics × Bool)
  | [], latest => pure (latest, true)
  | range :: ranges, _ => do
    let subgroup := (chunk.drop range.1).take (range.2 - range.1)
    let (latest, keep) ← ask (trainer.trainPackedSequences layout subgroup
      params.objective.lossDenominator params.schedulerTotalSteps passes)
    if keep then trainPasses layout chunk params passes ranges latest
    else pure (latest, false)

/-- One weighted optimizer transaction over a chunk: the packed or the row geometry, for all of its
members. -/
def trainWeightedMembers (layout : RowLayout) (chunk : List ChunkMember)
    (weights : List (List Float32)) (params : GrpoStepParams) : OutM σ (TrainMetrics × Bool) := do
  let capability ← ask trainer.supportsSharedPrefixPackedTraining
  match ← check (selectPacking chunk layout capability) with
  | .packed ranges =>
    if 2 ^ 32 ≤ ranges.length then throw (.overflow "packed pass count exceeds u32")
    trainPasses trainer layout (chunk.zip weights) params ranges.length ranges {}
  | .rows _ _ =>
    ask (trainer.trainWeighted layout ((chunk.map ChunkMember.rollout).zip weights)
      params.objective.lossDenominator params.schedulerTotalSteps)

/-- One optimizer chunk: every member is scored under the same current policy, then the chunk is
trained as one transaction. -/
def grpoChunkStep (layout : RowLayout) (params : GrpoStepParams) (chunk : List ChunkMember)
    (reuseBehaviorLogprobs : Bool) : OutM σ (TrainMetrics × TokenStats × Bool) := do
  if chunk.isEmpty then throw (.invalidArgument "GRPO optimizer chunk must not be empty")
  let (weights, stats) ← chunkWeights trainer params.objective reuseBehaviorLogprobs chunk {}
  let (metrics, keepTraining) ← trainWeightedMembers trainer layout chunk weights params
  pure (metrics, stats, keepTraining)

/-! ### The epoch -/

/-- The epoch's working state. -/
structure EpochState where
  /-- Cleared by the first optimizer step of the epoch. -/
  reuseBehaviorLogprobs : Bool
  metrics : TrainMetrics
  stats : TokenStats

/-- Dead slots advance the scheduler; the live ones come back in their order, unless a callback asked
to stop. -/
def advanceDead (batch : EpochBatch) (layout : RowLayout) :
    List ℕ → List ℕ → EpochState → OutM σ (Option (List ℕ) × EpochState)
  | [], liveOrder, state => pure (some liveOrder, state)
  | index :: order, liveOrder, state => do
    let position ← check (indexed batch.referencePositions index)
    if position.isSome then advanceDead batch layout order (liveOrder ++ [index]) state
    else
      let globalStep ← ask (trainer.advanceSchedulerSteps layout.stepsPerRow)
      let state := { state with metrics := { state.metrics with globalStep } }
      let keep ← ask (trainer.onProgress state.metrics)
      if keep then advanceDead batch layout order liveOrder state else pure (none, state)

/-- The chunks, stepped until a callback asks to stop. -/
def stepChunks (batch : EpochBatch) (layout : RowLayout) (params : GrpoStepParams) :
    List (List ℕ) → EpochState → OutM σ (Bool × EpochState)
  | [], state => pure (true, state)
  | chunkIndices :: chunks, state => do
    let members ← check (chunkIndices.mapM batch.member)
    let (metrics, chunkStats, keepTraining) ← grpoChunkStep trainer layout params members
      state.reuseBehaviorLogprobs
    let state := ⟨false, metrics, state.stats.add chunkStats⟩
    if keepTraining then stepChunks batch layout params chunks state else pure (false, state)

/-- One epoch over an already-shuffled slot order. The flag is false when a progress callback asked
to stop. -/
def runGrpoEpoch (batch : EpochBatch) (order : List ℕ) (layout : RowLayout)
    (params : GrpoStepParams) (state : EpochState) : OutM σ (Bool × EpochState) := do
  let (liveOrder, state) ← advanceDead trainer batch layout order [] state
  match liveOrder with
  | none => pure (false, state)
  | some liveOrder =>
    let chunks ← check (groupedOptimizerChunks liveOrder batch.groupIds batch.rollouts
      batch.rolloutEvals layout)
    stepChunks trainer batch layout params chunks state

end Steps

end Retrograd.Training
