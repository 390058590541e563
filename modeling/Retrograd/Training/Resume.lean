import Retrograd.Training.Batch
import Retrograd.Training.Horizon

/-!
# Policy runs that stop and resume

GRPO, PPO and on-policy distillation run the same loop: launch from the start or from the boundary
a checkpoint keeps, and for every update left draw its prompts, train on them under the schedule's
horizon, and emit the boundary the next launch could resume from. `Policy` is that loop's
interface; each of the three loops is an instance of it under its own name. What an update turns
out to cost and to measure is the world's (`Work`).
-/

namespace Retrograd.Training

open Infer (Token)
open Logic

/-- A point at which a run can be checkpointed and later resumed. -/
structure Boundary where
  /-- Updates fully completed, i.e. the index of the next one to run. -/
  completedIterations : ℕ
  cursor : ℕ
  klMultiplier : Option Float32

/-- What the policy loops read of the training configuration. -/
structure TrainConfig where
  warmupSteps : ℕ
  nSeqMax : ℕ
  fits : warmupSteps ≤ usizeMax

/-- What the world makes of one update. -/
structure Work where
  /-- Candidate groups drawn; more than the batch holds where groups without signal are replaced. -/
  groups : ℕ
  /-- Every slot of a batch is trained or advances the scheduler. -/
  steps : ℕ
  steps_pos : 0 < steps
  /-- The KL its last epoch measured. -/
  kl : Float32

/-- What an update is run with. -/
structure Given where
  horizon : ℕ
  draws : List Draw
  /-- The sampling seeds of every draw's completions. -/
  seeds : List (List ℕ)
  klCoefficient : Float32

/-- A loop of policy updates. -/
structure Policy (S : Type) where
  updates : ℕ
  /-- The nominal steps of one update: one row for every rollout slot of every epoch. -/
  share : ℕ
  warmupSteps : ℕ
  seed : ℕ
  /-- The checks of a launch, its nominal step count and what it starts from. -/
  resumeState : Option Boundary → Except Error (ℕ × S)
  draw : ℕ → Work → S → Except Error (List Draw × S)
  klCoefficient : ℕ → S → Float32
  /-- What an update leaves once its epochs are done. -/
  close : Work → S → S
  boundary : ℕ → S → Boundary

/-- A launch under way, before its next update. -/
structure Launch (S : Type) where
  update : ℕ
  clock : Clock
  state : S

namespace Policy

variable {S : Type} (policy : Policy S) (work : ℕ → Work)

/-- `run_resumed`, up to the loop; the trainer counts the steps of its checkpoint. -/
def launch (resume : Option Boundary) (trainerStep : ℕ) : Except Error (Launch S) := do
  let (totalSteps, state) ← policy.resumeState resume
  pure {
    update := (resume.map Boundary.completedIterations).getD 0
    clock := .launch totalSteps policy.warmupSteps trainerStep
    state }

/-- One update of the loop. -/
def next (launch : Launch S) : Except Error (Given × Launch S) := do
  let klCoefficient := policy.klCoefficient launch.update launch.state
  let (draws, state) ← policy.draw launch.update (work launch.update) launch.state
  pure (
    { horizon := launch.clock.horizon.steps
      draws
      seeds := draws.map fun draw => draw.seedOffsets.map fun o => (policy.seed + o) % 2 ^ 32
      klCoefficient },
    { update := launch.update + 1
      clock := launch.clock.close (work launch.update).steps (policy.updates - launch.update - 1)
      state := policy.close (work launch.update) state })

/-- The launch some updates later. -/
def after (launch : Launch S) : ℕ → Except Error (Launch S)
  | 0 => pure launch
  | count + 1 => do
    let launch ← after launch count
    let (_, launch) ← policy.next work launch
    pure launch

/-- What the update after so many of a launch is run with. -/
def given (launch : Launch S) (count : ℕ) : Except Error Given := do
  let launch ← policy.after work launch count
  let (given, _) ← policy.next work launch
  pure given

/-- The boundary emitted by the last update a launch finished. -/
def emitted (launch : Launch S) : Boundary := policy.boundary launch.update launch.state

end Policy

/-! ### What the loops share -/

/-- `u64::checked_mul`. -/
def checkedMul (a b : ℕ) : Option ℕ := if a * b ≤ usizeMax then some (a * b) else none

/-- One step for every row of every rollout slot of every epoch: an upper bound. -/
def nominalSteps (updates epochs rollouts stepsPerRow : ℕ) (overflow : String) : Except Error ℕ :=
  match ((checkedMul updates epochs).bind (checkedMul · rollouts)).bind
      (checkedMul · stepsPerRow) with
  | some steps => .ok steps
  | none => .error (.overflow overflow)

/-- A checkpoint of a run that is over cannot be resumed. -/
def refuseCompleted (table : String) (resume : Option Boundary) (updates : ℕ) :
    Except Error Unit :=
  let startUpdate := (resume.map Boundary.completedIterations).getD 0
  if updates ≤ startUpdate then
    .error (.checkpoint (s!"the checkpoint has {startUpdate} completed updates, at or past " ++
      s!"{table}.updates ({updates})"))
  else .ok ()

/-- One group's draw: the prompt at the cursor, and a seed offset for every member. -/
def drawGroup (setup : Setup) (size : ℕ) (overflow : String) (cursor : ℕ) (draws : PromptDraws) :
    Except Error (Draw × PromptDraws) := do
  let (promptSlot, draws) ← draws.slot cursor
  match setup.promptRows[promptSlot]? with
  | none => throw (.panic "index out of bounds")
  | some tokens =>
    let seedOffsets ← (List.range size).mapM fun member =>
      if cursor * size + member ≤ usizeMax then Except.ok (cursor * size + member)
      else .error (.overflow overflow)
    pure ({ promptSlot, tokens, seedOffsets }, draws)

/-- As many draws in a row. -/
def drawGroups (setup : Setup) (size : ℕ) (overflow : String) :
    ℕ → ℕ → PromptDraws → Except Error (List Draw × PromptDraws)
  | 0, _, draws => pure ([], draws)
  | count + 1, cursor, draws => do
    let (draw, draws) ← drawGroup setup size overflow cursor draws
    let (rest, draws) ← drawGroups setup size overflow count (cursor + 1) draws
    pure (draw :: rest, draws)

/-! ### GRPO -/

/-- What a GRPO run carries from one update to the next. -/
structure GrpoState where
  klMultiplier : Float32
  promptCursor : ℕ
  promptDraws : PromptDraws

/-- `f32::min`, which prefers a number. -/
def minF32 (a b : Float32) : Float32 :=
  if a.isNaN then b else if b.isNaN then a else if a ≤ b then a else b

/-- `f32::max`, which prefers a number. -/
def maxF32 (a b : Float32) : Float32 :=
  if a.isNaN then b else if b.isNaN then a else if a ≤ b then b else a

def nextKlMultiplier (current : Float32) (target : Option Float32) (measuredKl : Float32) :
    Float32 :=
  match target with
  | none => current
  | some target =>
    if 2 * target < measuredKl then minF32 (current * 1.5) 1000
    else if measuredKl < 0.5 * target then maxF32 (current / 1.5) 0.001
    else current

namespace GrpoConfig

variable (config : GrpoConfig) (training : TrainConfig) (setup : Setup)

def resumeState (resume : Option Boundary) : Except Error (ℕ × GrpoState) := do
  config.validate
  refuseCompleted "grpo" resume config.updates
  if training.nSeqMax < config.groupSize then
    throw (.invalidArgument
      s!"training.n_seq_max ({training.nSeqMax}) must cover grpo.group_size ({config.groupSize})")
  if usizeMax < config.promptsPerUpdate * config.groupSize then
    throw (.overflow "GRPO rollout count overflows usize")
  let totalSteps ← nominalSteps config.updates config.grpoEpochs
    (config.promptsPerUpdate * config.groupSize) setup.layout.stepsPerRow
    "GRPO optimizer step count overflows u64"
  pure (totalSteps, {
    klMultiplier := (resume.bind Boundary.klMultiplier).getD 1
    promptCursor := (resume.map Boundary.cursor).getD 0
    promptDraws := .new config.promptOrder setup.prompts.length config.sampling.seed })

/-- Base coefficient, linear warm-up, adaptive multiplier. -/
def effectiveKl (update : ℕ) (state : GrpoState) : Float32 :=
  let warmupFactor := match config.klSchedule with
    | some schedule =>
      if 0 < schedule.warmupUpdates then
        minF32 (f32OfNat update / f32OfNat schedule.warmupUpdates) 1
      else 1
    | none => 1
  config.klCoefficient * warmupFactor * state.klMultiplier

/-- `grpo::run_resumed`. -/
def policy : Policy GrpoState where
  updates := config.updates
  share := config.grpoEpochs * (config.promptsPerUpdate * config.groupSize) *
    setup.layout.stepsPerRow
  warmupSteps := training.warmupSteps
  seed := config.sampling.seed
  resumeState := config.resumeState training setup
  draw _ work state := do
    let (draws, promptDraws) ← drawGroups setup config.groupSize
      "GRPO sampling seed offset overflows usize" work.groups state.promptCursor state.promptDraws
    pure (draws, { state with promptCursor := state.promptCursor + work.groups, promptDraws })
  klCoefficient := config.effectiveKl
  close work state := match config.klSchedule with
    | some schedule => { state with
        klMultiplier := nextKlMultiplier state.klMultiplier schedule.target work.kl }
    | none => state
  -- the cursor is carried rather than derived: replaced groups move it too
  boundary update state := ⟨update, state.promptCursor, some state.klMultiplier⟩

end GrpoConfig

/-! ### PPO -/

structure PpoConfig where
  updates : ℕ
  rolloutBatchSize : ℕ
  ppoEpochs : ℕ
  klCoefficient : Float32
  sampling : SamplingParams

namespace PpoConfig

variable (config : PpoConfig) (training : TrainConfig) (setup : Setup)

def resumeState (resume : Option Boundary) : Except Error (ℕ × Unit) := do
  refuseCompleted "ppo" resume config.updates
  let totalSteps ← nominalSteps config.updates config.ppoEpochs config.rolloutBatchSize
    setup.layout.stepsPerRow "PPO optimizer step count overflows u64"
  pure (totalSteps, ())

/-- One rollout's draw, cycling through the prompts. -/
def drawAt (offset : ℕ) : Except Error Draw :=
  if setup.prompts.length = 0 then .error (.panic "remainder by zero")
  else match setup.promptRows[offset % setup.prompts.length]? with
    | none => .error (.panic "index out of bounds")
    | some tokens => .ok {
        promptSlot := offset % setup.prompts.length
        tokens
        seedOffsets := [offset] }

/-- `ppo::run_resumed`. The cursor is a function of the update, so nothing of the boundary but its
count is used. -/
def policy : Policy Unit where
  updates := config.updates
  share := config.ppoEpochs * config.rolloutBatchSize * setup.layout.stepsPerRow
  warmupSteps := training.warmupSteps
  seed := config.sampling.seed
  resumeState := config.resumeState setup
  draw update _ state := do
    let draws ← (List.range config.rolloutBatchSize).mapM fun index =>
      drawAt setup (update * config.rolloutBatchSize + index)
    pure (draws, state)
  klCoefficient _ _ := config.klCoefficient
  close _ state := state
  boundary update _ := ⟨update, update * config.rolloutBatchSize, none⟩

end PpoConfig

/-! ### On-policy distillation -/

structure DistillConfig where
  updates : ℕ
  promptsPerUpdate : ℕ
  samplesPerPrompt : ℕ
  distillEpochs : ℕ
  clipRangeLow : Float32
  clipRangeHigh : Float32
  weightClip : Float32
  klCoefficient : Float32
  promptOrder : PromptOrder
  sampling : SamplingParams

/-- What a distillation run carries from one update to the next. -/
structure DistillState where
  promptCursor : ℕ
  promptDraws : PromptDraws

namespace DistillConfig

variable (config : DistillConfig) (training : TrainConfig) (setup : Setup)

/-- The checks of the on-policy mode. -/
def validate : Except Error Unit := do
  if config.updates = 0 ∨ config.promptsPerUpdate = 0 ∨ config.distillEpochs = 0 then
    throw (.config
      "distill updates, prompts_per_update, and distill_epochs must be greater than zero")
  if config.samplesPerPrompt = 0 then
    throw (.config "distill.samples_per_prompt must be at least 1")
  if config.samplesPerPrompt > 256 then
    throw (.config "distill.samples_per_prompt must not exceed 256")
  if !(0 < config.clipRangeLow && config.clipRangeLow < 1
      && 0 < config.clipRangeHigh && config.clipRangeHigh < 1) then
    throw (.config "distill.clip_range_low and distill.clip_range_high must be between 0 and 1")
  if config.clipRangeHigh < config.clipRangeLow then
    throw (.config
      "distill.clip_range_high must not be below distill.clip_range_low (Clip-Higher)")
  requirePositiveF32 config.weightClip "distill.weight_clip"
  requireNonNegativeF32 config.klCoefficient "distill.kl_coefficient"
  requireNonzero config.sampling.maxNewTokens
    "distill.sampling.max_new_tokens must be greater than zero"
  if config.sampling.temperature != 1 || config.sampling.topP != 1 then
    throw (.config "distillation requires on-policy sampling with temperature = 1 and top_p = 1")

def resumeState (resume : Option Boundary) : Except Error (ℕ × DistillState) := do
  config.validate
  refuseCompleted "distill" resume config.updates
  if training.nSeqMax < config.samplesPerPrompt then
    throw (.invalidArgument (s!"training.n_seq_max ({training.nSeqMax}) must cover " ++
      s!"distill.samples_per_prompt ({config.samplesPerPrompt})"))
  if usizeMax < config.promptsPerUpdate * config.samplesPerPrompt then
    throw (.overflow "distillation rollout count overflows usize")
  let totalSteps ← nominalSteps config.updates config.distillEpochs
    (config.promptsPerUpdate * config.samplesPerPrompt) setup.layout.stepsPerRow
    "distillation optimizer step count overflows u64"
  pure (totalSteps, {
    promptCursor := (resume.map Boundary.cursor).getD 0
    promptDraws := .new config.promptOrder setup.prompts.length config.sampling.seed })

/-- `distill::run_resumed`. -/
def policy : Policy DistillState where
  updates := config.updates
  share := config.distillEpochs * (config.promptsPerUpdate * config.samplesPerPrompt) *
    setup.layout.stepsPerRow
  warmupSteps := training.warmupSteps
  seed := config.sampling.seed
  resumeState := config.resumeState training setup
  draw _ _ state := do
    let (draws, promptDraws) ← drawGroups setup config.samplesPerPrompt
      "distillation sampling seed offset overflows usize" config.promptsPerUpdate
      state.promptCursor state.promptDraws
    pure (draws, { promptCursor := state.promptCursor + config.promptsPerUpdate, promptDraws })
  klCoefficient _ _ := config.klCoefficient
  close _ state := state
  boundary update state := ⟨update, state.promptCursor, none⟩

end DistillConfig

end Retrograd.Training
