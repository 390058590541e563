import Retrograd.Training.Draws
import Retrograd.Training.Judge
import Retrograd.Training.Sampling
import Retrograd.Training.Signal

/-!
# Assembling an update's batch

Phase 1 of an update. Candidate groups are drawn, sampled, scored and judged in waves; a wave's
groups are kept or set aside, and the batch is a dozen parallel vectors that every kept group
appends to. Without dynamic sampling one wave fills the batch. With it, waves are drawn until
enough informative groups are kept or the candidate budget is spent, and the groups set aside
first pad the batch up to its size.
-/

namespace Retrograd.Training

open Infer (Token)
open Logic

variable {σ : Type} (out : Outside σ)

/-! ### The reward command -/

/-- One reward with the weight its line gives the judge. -/
structure RewardRow where
  reward : Float32
  judgeWeight : Option Float32

/-- One call of the reward command: exactly one response for every request, or an error. -/
def rewardCall (requests : List RewardRequest) : OutM σ (List RewardResponse) := do
  let responses ← ask (out.rewardLines requests)
  if responses.length ≠ requests.length then
    throw (.reward (s!"reward command returned {responses.length} responses for " ++
      s!"{requests.length} rollouts"))
  pure responses

/-- The checks on response `index`. -/
def rewardRow (row : RewardResponse) (index : ℕ) : Except Error RewardRow :=
  if !row.reward.isFinite then
    .error (.invalidArgument s!"reward response {index + 1} is not finite")
  else if row.judgeWeight.any fun weight => !weight.isFinite || weight < 0 then
    .error (.invalidArgument
      s!"reward response {index + 1} has a judge_weight that is not finite and non-negative")
  else .ok ⟨row.reward, row.judgeWeight⟩

/-- The scalar form of one row: a weight is refused, there being no judge to use it. -/
def scalarRow (row : RewardRow) (index : ℕ) : Except Error RewardRow :=
  match row.judgeWeight with
  | none => .ok ⟨row.reward, none⟩
  | some _ => .error (.invalidArgument
      s!"reward response {index + 1} carries a judge_weight, which only [grpo.judge] honours")

/-- One row for every `(prompt, completion)` pair, in order. -/
def scoreRows (pairs : List (String × String)) : OutM σ (List RewardRow) := do
  let responses ← rewardCall out (pairs.map fun pair => ⟨pair.1, pair.2, none⟩)
  check (responses.zipIdx.mapM fun entry => rewardRow entry.1 entry.2)

/-- The scalar form, for a run without a judge. -/
def score (pairs : List (String × String)) : OutM σ (List RewardRow) := do
  let rows ← scoreRows out pairs
  check (rows.zipIdx.mapM fun entry => scalarRow entry.1 entry.2)

/-! ### Behavior scores -/

/-- The scores of the trained tokens of one span. -/
def maskedScores (span : Rollout) (first : ℕ) (suffix : List Float32) :
    Except Error (List Float32) :=
  if suffix.length ≠ span.tokens.length - first then
    .error (.runtime "batched suffix scores do not match rollout length")
  else
    .ok ((List.range' first (span.tokens.length - first)).zip suffix |>.filterMap fun entry =>
      if span.trainMask.getD entry.1 false then some entry.2 else none)

/-- The policy's scores of every span's trained tokens, through one shared-prefix batch. -/
def scoreTrainMaskGroup (spans : List Rollout) : OutM σ (List (List Float32)) := do
  if spans.isEmpty then
    pure []
  else
    let inputs ← check (spans.mapM fun span => do
      let first ← firstTrainIndex span.tokens span.trainMask
      pure (span.tokens, first))
    let suffixes ← ask (out.scoreTokenSuffixBatch inputs)
    check (((spans.zip inputs).zip suffixes).mapM fun entry =>
      maskedScores entry.1.1 entry.1.2.2 entry.2)

/-! ### The run's state -/

/-- What a run fixes before its first update. -/
structure Setup where
  layout : RowLayout
  lossDenominator : ℕ
  judge : Option GroupJudge
  prompts : List Prompt
  promptRows : List (List Token)
  /-- How many sequences the generation pool decodes at once. -/
  generationConcurrency : ℕ

/-- What a run carries from one update to the next. -/
structure Run (σ : Type) where
  outside : σ
  promptCursor : ℕ
  promptDraws : PromptDraws

abbrev RunM (σ : Type) := EStateM Error (Run σ)

/-- Runs a program against the outside; the rest of the run's state stays as it is. -/
def outside {α : Type} (m : OutM σ α) : RunM σ α := fun run =>
  match m run.outside with
  | .ok a o => .ok a { run with outside := o }
  | .error e o => .error e { run with outside := o }

/-! ### Candidates -/

/-- One drawn prompt: its slot in the file, its tokens and the seed offset of every member. -/
structure Draw where
  promptSlot : ℕ
  tokens : List Token
  seedOffsets : List ℕ

/-- The seed offset of one member of a draw. -/
def seedOffset (groupSize promptOffset member : ℕ) : Except Error ℕ :=
  if promptOffset * groupSize + member ≤ usizeMax then .ok (promptOffset * groupSize + member)
  else .error (.overflow "GRPO sampling seed offset overflows usize")

/-- Draws the next prompt and moves the cursor past it. -/
def drawPrompt (setup : Setup) (groupSize : ℕ) : RunM σ Draw := do
  let run ← get
  let promptOffset := run.promptCursor
  set { run with promptCursor := promptOffset + 1 }
  match run.promptDraws.slot promptOffset with
  | .error e => throw e
  | .ok (promptSlot, draws) =>
    modify fun run => { run with promptDraws := draws }
    match setup.promptRows[promptSlot]? with
    | none => throw (.panic "index out of bounds")
    | some tokens =>
      match (List.range groupSize).mapM (seedOffset groupSize promptOffset) with
      | .error e => throw e
      | .ok seedOffsets => pure { promptSlot, tokens, seedOffsets }

/-- One sampled group, before it is scored. -/
structure Candidate where
  rollouts : List Rollout
  completions : List String
  seeds : List ℕ
  promptSlot : ℕ

/-- The group sampled for a draw, member by member. -/
def makeCandidate (sampling : SamplingParams) (draw : Draw) (group : List (Rollout × String)) :
    Candidate :=
  let members := draw.seedOffsets.zip group
  { rollouts := members.map fun member => member.2.1
    completions := members.map fun member => member.2.2
    seeds := members.map fun member => (sampling.seed + member.1) % 2 ^ 32
    promptSlot := draw.promptSlot }

/-- The `(prompt, completion)` pairs of a wave, as the reward command reads them. -/
def rewardPairs (prompts : List Prompt) (candidates : List Candidate) :
    Except Error (List (String × String)) := do
  let groups ← candidates.mapM fun candidate =>
    match prompts[candidate.promptSlot]? with
    | none => if candidate.completions.isEmpty then .ok [] else .error (.panic "index out of bounds")
    | some prompt => .ok (candidate.completions.map fun c => (prompt.rewardText, c))
  pure groups.flatten

/-! ### Verdicts -/

/-- A wave's rewards with the judge's part in them, and which groups the judge scored. -/
structure JudgedRound where
  rewards : List Float32
  judgeTerms : List Float32
  judgeVerdicts : List (Option JudgeVerdict)
  judged : List Bool

/-- `slice::chunks`, for a positive size. -/
def chunks {α : Type} (size : ℕ) (l : List α) : List (List α) :=
  (List.range ((l.length + size - 1) / size)).map fun i => (l.drop (i * size)).take size

/-- Deals the verdicts back to the groups of a wave: a group that was not sent has none and
counts as judged, its reward being complete without one. -/
def dealVerdicts (groupSize : ℕ) : List Bool → List (Option JudgeVerdict) →
    List (Option JudgeVerdict) × List Bool
  | [], _ => ([], [])
  | asked :: rest, scored =>
    let members := (List.range groupSize).map fun member =>
      if asked then (scored[member]?).join else none
    let (verdicts, judged) := dealVerdicts groupSize rest (if asked then scored.drop groupSize
      else scored)
    (members ++ verdicts, (!asked || members.all Option.isSome) :: judged)

/-- The groups of a wave that are sent to the judge. -/
def judgeGroups (prompts : List Prompt) (candidates : List Candidate) (asked : List Bool) :
    Except Error (List JudgeGroup) :=
  ((candidates.zip asked).filter fun entry => entry.2).mapM fun entry =>
    match prompts[entry.1.promptSlot]? with
    | none => .error (.panic "index out of bounds")
    | some prompt => .ok ⟨entry.1.promptSlot, prompt, entry.1.completions⟩

/-- What one reward becomes: the command's own verdict and the judge's on top. -/
def judgeTerm (weight : Float32) (verdict : Option JudgeVerdict) : Float32 :=
  (match verdict with
    | none => 0
    | some verdict => verdict.value) * weight

/-- The verdicts on the groups that are sent, if there are any. -/
def scoreAsked (judge : GroupJudge) (groups : List JudgeGroup) (tally : JudgeTally) :
    OutM σ (List (Option JudgeVerdict) × JudgeTally) :=
  if groups.isEmpty then pure ([], tally) else judge.score out groups tally

/-- Blends a wave's verdicts into its rewards. A group whose every member weighs the verdict
at zero is not sent. -/
def judgeRound (setup : Setup) (groupSize : ℕ) (candidates : List Candidate)
    (rows : List RewardRow) (tally : JudgeTally) : OutM σ (JudgedRound × JudgeTally) :=
  match setup.judge with
  | some judge => do
    let weights := rows.map fun row => row.judgeWeight.getD judge.weight
    let asked := (chunks groupSize weights).map fun group => group.any fun weight => 0 < weight
    let groups ← check (judgeGroups setup.prompts candidates asked)
    let (scored, tally) ← scoreAsked out judge groups tally
    let (verdicts, judged) := dealVerdicts groupSize asked scored
    let terms := weights.zipWith judgeTerm verdicts
    pure ({ rewards := rows.zipWith (fun row term => row.reward + term) terms
            judgeTerms := terms
            judgeVerdicts := verdicts
            judged }, tally)
  | none =>
    pure ({ rewards := rows.map RewardRow.reward
            judgeTerms := List.replicate rows.length 0
            judgeVerdicts := List.replicate rows.length none
            judged := List.replicate candidates.length true }, tally)

/-! ### The batch -/

/-- The rollout slots of a batch, one entry for every slot in each vector. -/
structure Slots where
  rollouts : List Rollout := []
  promptIndices : List ℕ := []
  completions : List String := []
  memberSeeds : List ℕ := []
  rewards : List Float32 := []
  verifiableRewards : List Float32 := []
  judgeTerms : List Float32 := []
  judgeVerdicts : List (Option JudgeVerdict) := []
  judgedGroups : List Bool := []

/-- A scored candidate held aside as padding. -/
structure SpareGroup where
  rollouts : List Rollout
  completions : List String
  seeds : List ℕ
  rewards : List Float32
  verifiableRewards : List Float32
  judgeTerms : List Float32
  judgeVerdicts : List (Option JudgeVerdict)
  promptSlot : ℕ
  judged : Bool

/-- Appends a group of `size` members to every vector. -/
def Slots.extend (slots : Slots) (size : ℕ) (group : SpareGroup) : Slots where
  rollouts := slots.rollouts ++ group.rollouts
  promptIndices := slots.promptIndices ++ List.replicate size group.promptSlot
  completions := slots.completions ++ group.completions
  memberSeeds := slots.memberSeeds ++ group.seeds
  rewards := slots.rewards ++ group.rewards
  verifiableRewards := slots.verifiableRewards ++ group.verifiableRewards
  judgeTerms := slots.judgeTerms ++ group.judgeTerms
  judgeVerdicts := slots.judgeVerdicts ++ group.judgeVerdicts
  judgedGroups := slots.judgedGroups ++ List.replicate size group.judged

/-- The batch under assembly. -/
structure Assembly where
  slots : Slots := {}
  spare : List SpareGroup := []
  keptGroups : ℕ := 0
  groupsSampled : ℕ := 0
  judgeTally : JudgeTally := {}

/-- `&l[offset..offset + len]`. -/
def slice {α : Type} (l : List α) (offset len : ℕ) : Except Error (List α) :=
  if offset + len ≤ l.length then .ok ((l.drop offset).take len)
  else .error (.panic "range end index out of range")

/-- A candidate with its part of the wave's rows, rewards and verdicts. -/
def scoredGroup (groupSize offset : ℕ) (candidate : Candidate) (judged : Bool)
    (rows : List RewardRow) (round : JudgedRound) : Except Error SpareGroup := do
  let groupRows ← slice rows offset groupSize
  let rewards ← slice round.rewards offset groupSize
  let judgeTerms ← slice round.judgeTerms offset groupSize
  let judgeVerdicts ← slice round.judgeVerdicts offset groupSize
  pure
    { rollouts := candidate.rollouts
      completions := candidate.completions
      seeds := candidate.seeds
      rewards
      verifiableRewards := groupRows.map RewardRow.reward
      judgeTerms
      judgeVerdicts
      promptSlot := candidate.promptSlot
      judged }

/-- Whether dynamic sampling chooses a scored group: it was judged, and it has a signal. -/
def informative (config : GrpoConfig) (lossDenominator : ℕ) (group : SpareGroup) : Bool :=
  group.judged && groupHasSignal group.rollouts group.rewards config.maskTruncated
    config.overlongPenalty lossDenominator

/-- Keeps a scored group or sets it aside. Without dynamic sampling every group is kept. -/
def placeGroup (config : GrpoConfig) (lossDenominator : ℕ) (acc : Assembly)
    (group : SpareGroup) : Assembly :=
  if config.dynamicSampling.isNone || (acc.keptGroups < config.promptsPerUpdate
      && informative config lossDenominator group) then
    { acc with
      keptGroups := acc.keptGroups + 1
      slots := acc.slots.extend config.groupSize group }
  else { acc with spare := acc.spare ++ [group] }

/-- The candidate groups an update may draw. -/
def maxCandidateGroups (config : GrpoConfig) : ℕ :=
  match config.dynamicSampling with
  | some dynamic => saturatingMul config.promptsPerUpdate dynamic.maxResampleFactor
  | none => config.promptsPerUpdate

/-- One wave: `round` groups drawn, sampled, scored in one reward call, judged and placed. -/
def wave (config : GrpoConfig) (setup : Setup) (round : ℕ) (acc : Assembly) :
    RunM σ Assembly := do
  let draws ← (List.range round).mapM fun _ => drawPrompt setup config.groupSize
  let sampled ← outside (sampleRolloutGroupsContinuous out setup.layout config.sampling
    setup.generationConcurrency (draws.map fun draw => (draw.tokens, draw.seedOffsets)))
  let candidates := draws.zipWith (makeCandidate config.sampling) sampled
  let pairs ← outside (check (rewardPairs setup.prompts candidates))
  let rows ← outside (match setup.judge with
    | some _ => scoreRows out pairs
    | none => score out pairs)
  let (judgedRound, tally) ← outside
    (judgeRound out setup config.groupSize candidates rows acc.judgeTally)
  let groups ← outside (check ((candidates.zip judgedRound.judged).zipIdx.mapM fun entry =>
    scoredGroup config.groupSize (entry.2 * config.groupSize) entry.1.1 entry.1.2 rows
      judgedRound))
  pure (groups.foldl (placeGroup config setup.lossDenominator)
    { acc with groupsSampled := acc.groupsSampled + round, judgeTally := tally })

/-- The waves of an update. Every wave draws at least one group, so the candidate budget
bounds their number. -/
def waves (config : GrpoConfig) (setup : Setup) : ℕ → Assembly → RunM σ Assembly
  | 0, acc => pure acc
  | fuel + 1, acc =>
    if acc.keptGroups < config.promptsPerUpdate
        ∧ acc.groupsSampled < maxCandidateGroups config then do
      let round := min (config.promptsPerUpdate - acc.keptGroups)
        (maxCandidateGroups config - acc.groupsSampled)
      let acc ← wave out config setup round acc
      waves config setup fuel acc
    else pure acc

/-- Pads the batch with the groups set aside first. -/
def pad (config : GrpoConfig) (acc : Assembly) : Assembly :=
  if acc.keptGroups < config.promptsPerUpdate then
    let padGroups := min (config.promptsPerUpdate - acc.keptGroups) acc.spare.length
    { acc with
      slots := (acc.spare.take padGroups).foldl
        (fun slots group => slots.extend group.rollouts.length group) acc.slots
      spare := acc.spare.drop padGroups }
  else acc

/-- `for (x, y) in xs.iter_mut().zip(ys)`: every paired entry is replaced. -/
def zipUpdate {α β : Type} (f : α → β → α) : List α → List β → List α
  | a :: l, b :: rest => f a b :: zipUpdate f l rest
  | l, _ => l

/-- Scores one group of the batch under the behavior policy. -/
def scoreGroup (group : List Rollout) : OutM σ (List Rollout) := do
  let scores ← scoreTrainMaskGroup out group
  pure (zipUpdate (fun rollout scores => { rollout with oldLogprobs := scores }) group scores)

/-- One update's assembled batch. -/
structure TrainingBatch where
  slots : Slots
  groupsSampled : ℕ
  judgeTally : JudgeTally

/-- The check on what the judge dropped, for a run that has one. -/
def checkDropped (config : GrpoConfig) (tally : JudgeTally) : Except Error Unit :=
  match config.judge with
  | some judge => tally.check judge.maxDroppedFraction
  | none => .ok ()

/-- Phase 1 of an update: assembles the training batch. -/
def assembleBatch (config : GrpoConfig) (setup : Setup) : RunM σ TrainingBatch := do
  let acc ← waves out config setup (maxCandidateGroups config) {}
  outside (check (checkDropped config acc.judgeTally))
  let acc := pad config acc
  outside (ask out.scoringStats)
  let groups ← outside ((chunks config.groupSize acc.slots.rollouts).mapM (scoreGroup out))
  outside (ask out.scoringStats)
  pure
    { slots := { acc.slots with rollouts := groups.flatten }
      groupsSampled := acc.groupsSampled
      judgeTally := acc.judgeTally }

end Retrograd.Training
