import Retrograd.Training.PreferencePlan
import Retrograd.Training.Epoch

/-!
# The preference epochs

A run takes the chunks of its epochs one after another, each as one optimizer transaction, and emits a
**boundary** after each: pairs into the epoch, or the next epoch's start after the last. A step the
runtime skipped still advances the schedule, so the plan owns the step count.
-/

namespace Retrograd.Training.Preference

open Logic

/-! ### What a run is prepared for -/

/-- One prepared pair, as the two rollouts the weighted step trains. -/
structure Pair where
  promptLen : ℕ
  chosen : Rollout
  rejected : Rollout

/-- The reference scores of the two responses of every pair. -/
structure ReferenceTable where
  train : List (Float × Float)
  eval : List (Float × Float)

/-- A pair with its reference row, when the loss has a reference. -/
abbrev Row := Pair × Option (Float × Float)

structure PreparedPreference where
  pairs : List Pair
  eval : List Pair
  /-- Physical ubatches each pair costs inside one optimizer window. -/
  costs : List ℕ
  layout : RowLayout
  shuffle : Bool
  seed : ℕ
  pairsPerStep : Option ℕ
  epochs : ℕ
  costed : costs.length = pairs.length
  /-- A run without pairs is not prepared. -/
  nonempty : pairs ≠ []
  epochs_lt : epochs < 2 ^ 32

/-- What the run reads of its configuration. -/
structure PreferenceConfig where
  lossName : String
  usesReference : Bool
  logpsDropWarn : Float32

namespace PreparedPreference

/-- The order of one epoch and its optimizer chunks, as ranges of the order. -/
def planEpoch (prepared : PreparedPreference) (epoch : ℕ) : List ℕ × List (ℕ × ℕ) :=
  let order := epochOrder prepared.pairs.length prepared.shuffle prepared.seed epoch
  (order, chunkPairs order prepared.costs prepared.layout.accumulationPeriod prepared.pairsPerStep)

/-- The exact number of optimizer steps the configured epochs take. -/
def totalSteps (prepared : PreparedPreference) : ℕ :=
  ((List.range prepared.epochs).map fun epoch => (prepared.planEpoch epoch).2.length).foldl
    saturatingAdd 0

end PreparedPreference

/-! ### What a step reports -/

/-- What the pairs of one step, or of one epoch, add up to. -/
structure Totals where
  pairs : ℕ := 0
  steps : ℕ := 0
  loss : Float := 0
  margin : Float := 0
  correct : ℕ := 0
  chosenReward : Float := 0
  rejectedReward : Float := 0
  chosenLogps : Float := 0
  rejectedLogps : Float := 0
  nll : Float := 0
  logOdds : Float := 0
  clamped : ℕ := 0

namespace Totals

def merge (totals other : Totals) : Totals where
  pairs := totals.pairs + other.pairs
  steps := totals.steps + other.steps
  loss := totals.loss + other.loss
  margin := totals.margin + other.margin
  correct := totals.correct + other.correct
  chosenReward := totals.chosenReward + other.chosenReward
  rejectedReward := totals.rejectedReward + other.rejectedReward
  chosenLogps := totals.chosenLogps + other.chosenLogps
  rejectedLogps := totals.rejectedLogps + other.rejectedLogps
  nll := totals.nll + other.nll
  logOdds := totals.logOdds + other.logOdds
  clamped := totals.clamped + other.clamped

def mean (totals : Totals) (sum : Float) : Float := sum / (UInt64.ofNat (max totals.pairs 1)).toFloat

end Totals

/-- What a callback is told. The metric values are functions of the totals. -/
structure Progress where
  metrics : TrainMetrics
  totals : Totals
  boundary : Option Boundary
  /-- How far the chosen responses fell, when both sides are falling. -/
  warning : Option Float

/-- An epoch's end is the boundary the next epoch starts from. -/
def Progress.sft (metrics : TrainMetrics) (totals : Totals) : Progress where
  metrics
  totals
  boundary := if metrics.epochComplete then some ⟨metrics.epoch, 0, none⟩ else none
  warning := none

/-- The warning a run gives once. -/
structure DriftWatch where
  first : Option (Float × Float)
  threshold : Float
  warned : Bool

def DriftWatch.observe (drift : DriftWatch) (chosen rejected : Float) : Option Float × DriftWatch :=
  let first := drift.first.getD (chosen, rejected)
  let drift := { drift with first := some first }
  let drop := first.1 - chosen
  if drift.warned || decide (drop ≤ drift.threshold) || decide (first.2 ≤ rejected) then (none, drift)
  else (some drop, { drift with warned := true })

/-! ### The run -/

/-- The calls of a run on the engine, and on the callback that watches it. -/
structure Engine (σ : Type) where
  advanceSchedulerSteps : ℕ → σ → Except Error ℕ × σ
  /-- One optimizer transaction over whole pairs, under the schedule's horizon. -/
  step : List Row → ℕ → σ → Except Error (TrainMetrics × Totals) × σ
  onProgress : Progress → σ → Except Error Bool × σ

/-- What a run carries from step to step. -/
structure Loop where
  globalStep : ℕ
  drift : DriftWatch
  epochTotals : Totals := {}
  finalMetrics : TrainMetrics := {}

section Run

variable {σ : Type} (engine : Engine σ) (prepared : PreparedPreference)

/-- A pair by its number, with its row of the reference table. -/
def rowOf (reference : Option ReferenceTable) (pair : ℕ) : Except Error Row := do
  let found ← indexed prepared.pairs pair
  match reference with
  | none => .ok (found, none)
  | some table => do
    let row ← indexed table.train pair
    .ok (found, some row)

/-- Counts a step once: the plan owns the step count, and a step the runtime skipped still advances the
schedule. -/
def countStep (globalStep reached : ℕ) : OutM σ ℕ :=
  if reached < globalStep then throw (.runtime "the optimizer step counter moved backwards")
  else
    let taken := reached - globalStep
    if 1 < taken then
      throw (.runtime s!"a preference step took {taken} optimizer steps where its plan has one")
    else ask (engine.advanceSchedulerSteps (1 - taken))

/-- Reports a step, and the epoch after its last. The flag is false when a callback asked to stop. -/
def report (epoch : ℕ) (chunk : ℕ × ℕ) (atEpochEnd : Bool) (metrics : TrainMetrics) (totals : Totals)
    (loop : Loop) : OutM σ (Bool × Loop) := do
  let epochTotals := loop.epochTotals.merge totals
  let (warning, drift) :=
    loop.drift.observe (totals.mean totals.chosenLogps) (totals.mean totals.rejectedLogps)
  -- The last step of an epoch is followed by the epoch's own boundary, which is where it resumes.
  let boundary := if atEpochEnd then none else some ⟨epoch, chunk.2, none⟩
  let keepGoing ← ask (engine.onProgress { Progress.sft metrics totals with boundary, warning })
  if !atEpochEnd then pure (keepGoing, ⟨metrics.globalStep, drift, epochTotals, metrics⟩)
  else
    let metrics := { metrics with
      epochComplete := true
      trainLoss := (epochTotals.mean epochTotals.loss).toFloat32 }
    let keepEpoch ← ask (engine.onProgress (Progress.sft metrics epochTotals))
    pure (keepEpoch && keepGoing, ⟨metrics.globalStep, drift, epochTotals, metrics⟩)

/-- Trains one chunk and reports it. -/
def trainRows (epoch : ℕ) (chunk : ℕ × ℕ) (atEpochEnd : Bool) (rows : List Row) (loop : Loop) :
    OutM σ (Bool × Loop) := do
  let (metrics, totals) ← ask (engine.step rows prepared.totalSteps)
  let globalStep ← countStep engine loop.globalStep metrics.globalStep
  let totals := { totals with steps := 1 }
  let metrics := { metrics with
    globalStep
    epoch := epoch + 1
    epochComplete := false
    trainLoss := (totals.mean totals.loss).toFloat32
    evalLoss := 0 / 0 }
  report engine epoch chunk atEpochEnd metrics totals loop

/-- The chunks of an epoch from one on, until a callback asks to stop. -/
def runChunks (reference : Option ReferenceTable) (epoch lastChunk : ℕ) (order : List ℕ) :
    List ((ℕ × ℕ) × ℕ) → Loop → OutM σ (Bool × Loop)
  | [], loop => pure (true, loop)
  | (chunk, index) :: chunks, loop => do
    let rows ← check ((slice order chunk).mapM (rowOf prepared reference))
    let (keep, loop) ← trainRows engine prepared epoch chunk (index = lastChunk) rows loop
    if keep then runChunks reference epoch lastChunk order chunks loop else pure (false, loop)

/-- The epochs from `startEpoch` on, the first of them from a cursor. -/
def runEpochs (reference : Option ReferenceTable) (startEpoch cursor : ℕ) :
    List ℕ → Loop → OutM σ (Bool × Loop)
  | [], loop => pure (true, loop)
  | epoch :: epochs, loop =>
    if epoch < startEpoch then runEpochs reference startEpoch cursor epochs loop
    else do
      let first ← if epoch = startEpoch then check (resumeChunk (prepared.planEpoch epoch).2 cursor)
        else pure 0
      let (keep, loop) ← runChunks engine prepared reference epoch
        ((prepared.planEpoch epoch).2.length - 1) (prepared.planEpoch epoch).1
        ((prepared.planEpoch epoch).2.zipIdx.drop first) { loop with epochTotals := {} }
      if keep then runEpochs reference startEpoch cursor epochs loop else pure (false, loop)

/-- The checks a run makes of its reference table. -/
def checkReference (config : PreferenceConfig) (reference : Option ReferenceTable) :
    Except Error Unit :=
  if config.usesReference != reference.isSome then
    let verb := if reference.isSome then "reads no" else "needs"
    .error (.invalidArgument s!"preference loss '{config.lossName}' {verb} a reference table")
  else
    match reference with
    | none => .ok ()
    | some table =>
      if table.train.length ≠ prepared.pairs.length ∨ table.eval.length ≠ prepared.eval.length then
        .error (.invalidArgument "the reference table does not align with the prepared pairs")
      else .ok ()

/-- The epoch and the cursor a run starts at. -/
def startOf : Option Boundary → Except Error (ℕ × ℕ)
  | none => .ok (0, 0)
  | some boundary =>
    if 2 ^ 32 ≤ boundary.completedIterations then
      .error (.overflow "the checkpoint epoch count does not fit in the epoch counter")
    else .ok (boundary.completedIterations, boundary.cursor)

/-- What a run starts with: the engine's own step counter. -/
def openLoop (config : PreferenceConfig) : OutM σ Loop := do
  let globalStep ← ask (engine.advanceSchedulerSteps 0)
  pure { globalStep, drift := ⟨none, config.logpsDropWarn.toFloat, false⟩ }

/-- Runs the preference epochs, restarting at the step boundary `resume` restores, if any. -/
def runResumed (config : PreferenceConfig) (reference : Option ReferenceTable)
    (resume : Option Boundary) : OutM σ TrainMetrics := do
  check (checkReference prepared config reference)
  let (startEpoch, cursor) ← check (startOf resume)
  let loop ← openLoop engine config
  let (_, loop) ← runEpochs engine prepared reference startEpoch cursor
    (List.range prepared.epochs) loop
  pure loop.finalMetrics

end Run

end Retrograd.Training.Preference
