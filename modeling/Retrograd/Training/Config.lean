import Retrograd.Logic.Floats
import Retrograd.Logic.Text

/-!
# The `[grpo]` section

The configuration a GRPO run is validated against before it computes anything. Of the
section's fields the ones the update loop's batch and baseline phases read are here, with all
of the checks `validate` makes; the backend a judge talks to is not.
-/

namespace Retrograd.Training

open Logic

/-- The engine's error, one constructor per class the code raises. `panic` stands for an index
out of bounds, which ends the process: no result comes back. -/
inductive Error where
  | invalidArgument (message : String)
  | config (message : String)
  | overflow (message : String)
  | tokenize (message : String)
  | runtime (message : String)
  | reward (message : String)
  | checkpoint (message : String)
  | panic (message : String)
  deriving DecidableEq

/-- `usize::MAX` of a 64-bit target. -/
def usizeMax : ℕ := 2 ^ 64 - 1

/-- `usize::saturating_mul`. -/
def saturatingMul (a b : ℕ) : ℕ := min (a * b) usizeMax

/-- Group baseline that centers rewards into advantages. -/
inductive AdvantageBaseline where
  | mean
  | leaveOneOut
  deriving DecidableEq

/-- Order in which training prompts are drawn across updates. -/
inductive PromptOrder where
  | sequential
  | shuffled
  deriving DecidableEq

/-- What a failed judge request costs: its group, or the run. -/
inductive JudgeFailurePolicy where
  | dropGroup
  | fail
  deriving DecidableEq

/-- Soft overlong punishment: a reward penalty that ramps up over the last `bufferTokens` of
the generation budget. -/
structure OverlongPenalty where
  bufferTokens : ℕ
  maxPenalty : Float32

/-- Dynamic sampling: groups without signal are replaced, up to `maxResampleFactor` candidate
groups for every group of the batch. -/
structure DynamicSampling where
  maxResampleFactor : ℕ

/-- A judge next to the reward command; its verdict is added to the reward, weighted. -/
structure GrpoJudge where
  weight : Float32
  failure : JudgeFailurePolicy
  maxDroppedFraction : Float32

/-- Warmup and adaptive target of the KL coefficient. -/
structure KlSchedule where
  warmupUpdates : ℕ
  target : Option Float32

/-- The sampling parameters of a rollout. -/
structure SamplingParams where
  temperature : Float32
  topP : Float32
  maxNewTokens : ℕ
  seed : ℕ
  deriving DecidableEq

/-- The `[grpo]` section. -/
structure GrpoConfig where
  rewardCommand : List String
  updates : ℕ
  promptsPerUpdate : ℕ
  groupSize : ℕ
  grpoEpochs : ℕ
  clipRangeLow : Float32
  clipRangeHigh : Float32
  klCoefficient : Float32
  maskTruncated : Bool
  baseline : AdvantageBaseline
  promptOrder : PromptOrder
  overlongPenalty : Option OverlongPenalty
  klSchedule : Option KlSchedule
  dynamicSampling : Option DynamicSampling
  judge : Option GrpoJudge
  sampling : SamplingParams

def requirePositiveF32 (value : Float32) (name : String) : Except Error Unit :=
  if !(0 < value && value.isFinite) then
    .error (.config s!"{name} must be finite and greater than zero")
  else .ok ()

def requireNonNegativeF32 (value : Float32) (name : String) : Except Error Unit :=
  if value < 0 || !value.isFinite then
    .error (.config s!"{name} must be finite and non-negative")
  else .ok ()

def requireNonzero (value : ℕ) (message : String) : Except Error Unit :=
  if value = 0 then .error (.config message) else .ok ()

def validateCommand (command : List String) : Except Error Unit :=
  match command with
  | [] => .error (.config "reward_command must contain an executable")
  | program :: _ =>
    if isBlank program then .error (.config "reward_command must contain an executable")
    else .ok ()

def GrpoJudge.validate (judge : GrpoJudge) : Except Error Unit := do
  requireNonNegativeF32 judge.weight "grpo.judge_weight"
  if !judge.maxDroppedFraction.isFinite
      || !(0 ≤ judge.maxDroppedFraction && judge.maxDroppedFraction ≤ 1) then
    throw (.config "grpo.max_judge_dropped_fraction must be finite and in [0, 1]")

namespace GrpoConfig

/-- The checks on the batch's shape: how many groups, of how many members. -/
def validateShape (config : GrpoConfig) : Except Error Unit := do
  if config.updates = 0 ∨ config.promptsPerUpdate = 0 ∨ config.grpoEpochs = 0 then
    throw (.config "grpo updates, prompts_per_update, and grpo_epochs must be greater than zero")
  if config.groupSize < 2 then
    throw (.config "grpo.group_size must be at least 2")
  if config.groupSize > 256 then
    throw (.config "grpo.group_size must not exceed 256")

/-- The checks on the surrogate's clip range. -/
def validateClip (config : GrpoConfig) : Except Error Unit := do
  if !(0 < config.clipRangeLow && config.clipRangeLow < 1
      && 0 < config.clipRangeHigh && config.clipRangeHigh < 1) then
    throw (.config "grpo.clip_range_low and grpo.clip_range_high must be between 0 and 1")
  if config.clipRangeHigh < config.clipRangeLow then
    throw (.config
      "grpo.clip_range_high must not be below grpo.clip_range_low (Clip-Higher)")

/-- The checks on sampling: on-policy, with a generation budget. -/
def validateSampling (config : GrpoConfig) : Except Error Unit := do
  requireNonzero config.sampling.maxNewTokens
    "grpo.sampling.max_new_tokens must be greater than zero"
  if config.sampling.temperature != 1 || config.sampling.topP != 1 then
    throw (.config "Dr. GRPO requires on-policy sampling with temperature = 1 and top_p = 1")

/-- The checks on the overlong penalty. -/
def validatePenalty (config : GrpoConfig) : Except Error Unit :=
  match config.overlongPenalty with
  | none => .ok ()
  | some penalty => do
    if penalty.bufferTokens = 0 ∨ config.sampling.maxNewTokens ≤ penalty.bufferTokens then
      throw (.config "grpo.overlong_penalty.buffer_tokens must be in 1..max_new_tokens")
    requirePositiveF32 penalty.maxPenalty "grpo.overlong_penalty.max_penalty"

/-- The checks on the KL schedule. -/
def validateSchedule (config : GrpoConfig) : Except Error Unit :=
  match config.klSchedule with
  | none => .ok ()
  | some schedule => do
    if config.klCoefficient == 0 then
      throw (.config "grpo.kl_schedule requires kl_coefficient > 0")
    match schedule.target with
    | none => .ok ()
    | some target => requirePositiveF32 target "grpo.kl_schedule.target"

/-- The checks on the judge, when there is one. -/
def validateJudge (config : GrpoConfig) : Except Error Unit :=
  match config.judge with
  | none => .ok ()
  | some judge => judge.validate

/-- The check on dynamic sampling. -/
def validateDynamic (config : GrpoConfig) : Except Error Unit :=
  match config.dynamicSampling with
  | none => .ok ()
  | some dynamic =>
    if dynamic.maxResampleFactor < 2 then
      .error (.config "grpo.dynamic_sampling.max_resample_factor must be at least 2")
    else .ok ()

/-- Validates a configuration, in the order the source makes its checks. -/
def validate (config : GrpoConfig) : Except Error Unit := do
  validateCommand config.rewardCommand
  config.validateShape
  config.validateClip
  requireNonNegativeF32 config.klCoefficient "grpo.kl_coefficient"
  config.validateJudge
  config.validateSampling
  config.validatePenalty
  config.validateSchedule
  config.validateDynamic

end GrpoConfig

end Retrograd.Training
