import Retrograd.Training.Resume

/-!
# The run controller

When a run evaluates, when it stops early and when it writes a checkpoint. The controller is
consulted at every training event: the **step cadence** arms a checkpoint that the next boundary
writes, an **evaluation** moves the best value and the count of stale ones and may write the
`best` checkpoint, and a **request** asks for one out of schedule. A restart reads its schedule
back from the checkpoint's progress record.

Global steps count optimizer steps and are natural numbers here.
-/

namespace Retrograd.Run

open Training (Boundary Error)

/-! ### Configuration -/

/-- Which way an evaluation metric improves. -/
inductive EvalDirection where
  | lower
  | higher
  deriving DecidableEq

inductive CheckpointMode where
  | steps
  | bestEval
  | stepsAndBestEval
  deriving DecidableEq

def CheckpointMode.includesSteps : CheckpointMode → Bool
  | .steps | .stepsAndBestEval => true
  | .bestEval => false

def CheckpointMode.includesBestEval : CheckpointMode → Bool
  | .bestEval | .stepsAndBestEval => true
  | .steps => false

/-- The `[checkpoint]` section, with what building it checks. -/
structure CheckpointConfig where
  directory : String
  mode : CheckpointMode
  everySteps : Option ℕ
  resumeFrom : Option String
  steps_set : mode.includesSteps = true → ∃ steps, everySteps = some steps ∧ 0 < steps
  only_steps : mode.includesSteps = false → everySteps = none

/-- The `[evaluation]` section. -/
structure EvaluationConfig where
  everyIterations : ℕ
  patience : Option ℕ
  minDelta : Float

/-- What the controller reads of a run's configuration. -/
structure RunConfig where
  algorithm : String
  evaluation : Option EvaluationConfig
  checkpoint : Option CheckpointConfig

/-- The same section, resuming from another path. -/
def CheckpointConfig.resuming (config : CheckpointConfig) (path : Option String) :
    CheckpointConfig :=
  { config with resumeFrom := path }

/-- The same run, restarted from a checkpoint. -/
def RunConfig.resuming (config : RunConfig) (path : String) : RunConfig :=
  { config with checkpoint := config.checkpoint.map (·.resuming (some path)) }

/-! ### The cadence -/

/-- The first multiple of `frequency` strictly after `step`. -/
def nextMultipleAfter (step frequency : ℕ) : ℕ := (step / frequency + 1) * frequency

/-- The step cadence of `checkpoint`, when its mode writes on one. -/
def stepCadence (checkpoint : Option CheckpointConfig) : Option ℕ :=
  (checkpoint.filter (·.mode.includesSteps)).bind (·.everySteps)

theorem lt_nextMultipleAfter {frequency : ℕ} (hpos : 0 < frequency) (step : ℕ) :
    step < nextMultipleAfter step frequency := by
  rw [nextMultipleAfter, ← Nat.div_lt_iff_lt_mul hpos]
  exact Nat.lt_succ_self _

theorem dvd_nextMultipleAfter (step frequency : ℕ) : frequency ∣ nextMultipleAfter step frequency :=
  Dvd.intro_left _ rfl

/-- A multiple past `step` is not before the next one. -/
theorem nextMultipleAfter_le {step frequency multiple : ℕ} (hdvd : frequency ∣ multiple)
    (hlt : step < multiple) : nextMultipleAfter step frequency ≤ multiple := by
  obtain ⟨count, rfl⟩ := hdvd
  have hcount : step / frequency < count := Nat.div_lt_of_lt_mul hlt
  rw [nextMultipleAfter, Nat.mul_comm]
  exact Nat.mul_le_mul_left frequency hcount

/-- Until the next multiple is reached, it stays the next one. -/
theorem nextMultipleAfter_eq {frequency earlier step : ℕ} (hpos : 0 < frequency)
    (hle : earlier ≤ step) (hlt : step < nextMultipleAfter earlier frequency) :
    nextMultipleAfter step frequency = nextMultipleAfter earlier frequency := by
  apply le_antisymm
  · exact nextMultipleAfter_le (dvd_nextMultipleAfter earlier frequency) hlt
  · exact nextMultipleAfter_le (dvd_nextMultipleAfter step frequency)
      (hle.trans_lt (lt_nextMultipleAfter hpos step))

/-- A multiple was passed on the way to `step` exactly when the next one was. -/
theorem nextMultipleAfter_le_iff {frequency earlier step : ℕ} (hpos : 0 < frequency) :
    nextMultipleAfter earlier frequency ≤ step ↔
      ∃ multiple, frequency ∣ multiple ∧ earlier < multiple ∧ multiple ≤ step := by
  constructor
  · intro h
    exact ⟨_, dvd_nextMultipleAfter earlier frequency, lt_nextMultipleAfter hpos earlier, h⟩
  · rintro ⟨multiple, hdvd, hlt, hle⟩
    exact (nextMultipleAfter_le hdvd hlt).trans hle

@[simp] theorem nextMultipleAfter_zero (frequency : ℕ) : nextMultipleAfter 0 frequency = frequency := by
  simp [nextMultipleAfter]

theorem stepCadence_pos {checkpoint : Option CheckpointConfig} {frequency : ℕ}
    (h : stepCadence checkpoint = some frequency) : 0 < frequency := by
  obtain ⟨config, hconfig, hsteps⟩ := Option.bind_eq_some_iff.mp h
  obtain ⟨-, hmode⟩ := Option.filter_eq_some_iff.mp hconfig
  obtain ⟨steps, hset, hpos⟩ := config.steps_set hmode
  rw [hset, Option.some.injEq] at hsteps
  exact hsteps ▸ hpos

/-- The cadence is the configured frequency: a section that writes on none states none. -/
theorem stepCadence_some (config : CheckpointConfig) : stepCadence (some config) = config.everySteps := by
  cases hmode : config.mode.includesSteps with
  | true => simp [stepCadence, Option.filter, hmode]
  | false => simp [stepCadence, Option.filter, hmode, config.only_steps hmode]

/-! ### Checkpoints -/

/-- The progress record of a checkpoint. -/
structure Progress where
  version : ℕ
  /-- The next epoch or update, zero-based. -/
  epoch : ℕ
  globalStep : ℕ
  cursor : ℕ
  algorithm : String
  phase : String
  bestEval : Option Float
  staleEvaluations : ℕ
  klMultiplier : Option Float32

/-- A complete checkpoint: its state directory and the progress it keeps. -/
structure Checkpoint where
  path : String
  progress : Progress

/-- `FORMAT_VERSION`. -/
def formatVersion : ℕ := 1

/-- `step-{global_step:012}`. -/
def stepId (globalStep : ℕ) : String :=
  let digits := toString globalStep
  "step-" ++ String.ofList (List.replicate (12 - digits.length) '0') ++ digits

/-! ### The controller -/

structure RunController where
  evaluation : Option EvaluationConfig
  checkpoint : Option CheckpointConfig
  nextCheckpointStep : Option ℕ
  /-- The step schedule fired, but the run has not reached a boundary yet. -/
  checkpointDue : Bool
  /-- Someone asked for a checkpoint out of schedule. -/
  checkpointRequested : Bool
  /-- Last step the loop reported. -/
  lastGlobalStep : ℕ
  bestEval : Option Float
  staleEvaluations : ℕ
  earlyStopped : Bool
  algorithm : String

/-- What one evaluation led to. `saved` is the `best` checkpoint, when one was written. -/
structure EvalOutcome where
  improved : Bool
  best : Float
  stale : ℕ
  patience : Option ℕ
  saved : Option Checkpoint
  keepTraining : Bool

/-- `u32::MAX`. -/
def u32Max : ℕ := 2 ^ 32 - 1

namespace RunController

def new (config : RunConfig) : RunController where
  evaluation := config.evaluation
  checkpoint := config.checkpoint
  nextCheckpointStep := stepCadence config.checkpoint
  checkpointDue := false
  checkpointRequested := false
  lastGlobalStep := 0
  bestEval := none
  staleEvaluations := 0
  earlyStopped := false
  algorithm := config.algorithm

def shouldEvaluate (c : RunController) (iteration totalIterations : ℕ) : Bool :=
  c.evaluation.any fun evaluation =>
    iteration % evaluation.everyIterations == 0 || iteration == totalIterations

/-- Restores the checkpoint `resume_from` names, which `load` reads, and returns the boundary the
algorithm must restart at. The schedule restarts from where the checkpoint left off, so the next
checkpoint is one interval away rather than immediate. -/
def begin (c : RunController) (load : String → Progress) : RunController × Option Boundary :=
  match c.checkpoint.bind (·.resumeFrom) with
  | none => (c, none)
  | some resumeFrom =>
    let info := load resumeFrom
    let c := { c with bestEval := info.bestEval, staleEvaluations := info.staleEvaluations }
    let c := match stepCadence c.checkpoint with
      | some frequency =>
        { c with nextCheckpointStep := some (nextMultipleAfter info.globalStep frequency) }
      | none => c
    (c, some ⟨info.epoch, info.cursor, info.klMultiplier⟩)

/-- Arms the step schedule. The checkpoint is only written at the next boundary. -/
def noteStep (c : RunController) (globalStep : ℕ) : RunController :=
  let c := { c with lastGlobalStep := globalStep }
  if c.nextCheckpointStep.any (· ≤ globalStep) then { c with checkpointDue := true } else c

/-- Asks for a checkpoint at the next resumable boundary. -/
def requestCheckpoint (c : RunController) : RunController := { c with checkpointRequested := true }

/-- One complete checkpoint under `config`, which is the section the controller writes for. -/
def writeCheckpoint (c : RunController) (config : CheckpointConfig) (id : String)
    (boundary : Boundary) (globalStep : ℕ) : Checkpoint where
  path := config.directory ++ "/" ++ id ++ ".state"
  progress :=
    { version := formatVersion
      epoch := boundary.completedIterations
      globalStep
      cursor := boundary.cursor
      algorithm := c.algorithm
      phase := "train"
      bestEval := c.bestEval
      staleEvaluations := c.staleEvaluations
      klMultiplier := boundary.klMultiplier }

/-- Where the schedule stands once a checkpoint is written: only a scheduled one moves it on. -/
def movedOn (c : RunController) (everySteps : Option ℕ) (globalStep : ℕ) : Option ℕ :=
  match c.checkpointDue, everySteps with
  | true, some frequency => some (nextMultipleAfter globalStep frequency)
  | _, _ => c.nextCheckpointStep

/-- Writes the pending checkpoint, if one is due or requested, at a boundary. -/
def checkpointBoundary (c : RunController) (boundary : Boundary) (globalStep : ℕ) :
    RunController × Option Checkpoint :=
  if !c.checkpointDue && !c.checkpointRequested then (c, none)
  else
    match c.checkpoint with
    -- a request on a run that writes no checkpoints has nowhere to go
    | none => ({ c with checkpointRequested := false }, none)
    | some config =>
      let written := c.writeCheckpoint config (stepId globalStep) boundary globalStep
      ({ c with
          nextCheckpointStep := c.movedOn config.everySteps globalStep
          checkpointDue := false
          checkpointRequested := false },
        some written)

end RunController

/-- Whether `value` improves on `best` by more than `minDelta`. -/
def EvalDirection.improves (direction : EvalDirection) (minDelta value : Float) :
    Option Float → Bool
  | none => true
  | some best =>
    match direction with
    | .lower => decide (value < best - minDelta)
    | .higher => decide (best + minDelta < value)

namespace RunController

/-- The best value and the count of stale evaluations after one more. -/
def counted (c : RunController) (improved : Bool) (value : Float) : RunController :=
  if improved then { c with bestEval := some value, staleEvaluations := 0 }
  else { c with staleEvaluations := min (c.staleEvaluations + 1) u32Max }

/-- The `best` checkpoint, when the mode keeps one and the run stands at a boundary. -/
def saveBest (c : RunController) (boundary : Option Boundary) (globalStep : ℕ) :
    Option Checkpoint :=
  match c.checkpoint.filter (·.mode.includesBestEval), boundary with
  | some config, some boundary => some (c.writeCheckpoint config "best" boundary globalStep)
  | _, _ => none

def recordEvaluation (c : RunController) (value : Float) (direction : EvalDirection)
    (canStop : Bool) (boundary : Option Boundary) (globalStep : ℕ) :
    Except Error (RunController × EvalOutcome) :=
  if !value.isFinite then .error (.runtime "evaluation metric is not finite")
  else
    match c.evaluation with
    | none => .error (.panic "record_evaluation requires an evaluation configuration")
    | some evaluation =>
      let improved := direction.improves evaluation.minDelta value c.bestEval
      let counted := c.counted improved value
      let saved := if improved then counted.saveBest boundary globalStep else none
      let exhausted := canStop && evaluation.patience.any (· ≤ counted.staleEvaluations)
      match counted.bestEval with
      | none => .error (.panic "an evaluation has been recorded")
      | some best =>
        .ok ({ counted with earlyStopped := exhausted || counted.earlyStopped },
          { improved
            best
            stale := counted.staleEvaluations
            patience := evaluation.patience
            saved
            keepTraining := !exhausted })

end RunController

/-! ### Training events -/

/-- One training event, with what the world does at it. -/
structure Event where
  epoch : ℕ
  globalStep : ℕ
  epochComplete : Bool
  boundary : Option Boundary
  /-- Whether the control plane asked for a checkpoint when it was polled here. -/
  requested : Bool
  /-- Whether the control plane lets the run go on. -/
  continues : Bool
  /-- What the held-out pass measures, if it runs here. -/
  loss : Float

/-- What one event led to. -/
structure Seen where
  evaluation : Option EvalOutcome
  /-- Whether the step schedule had fired when the event's boundary was considered. -/
  due : Bool
  /-- The checkpoint the boundary wrote. -/
  written : Option Checkpoint
  keepTraining : Bool

/-- The checkpoint the step schedule wrote. -/
def Seen.scheduled (seen : Seen) : Option Checkpoint := if seen.due then seen.written else none

/-- Every checkpoint written at the event: `best`, scheduled or requested. -/
def Seen.checkpoints (seen : Seen) : List Checkpoint :=
  (seen.evaluation.bind (·.saved)).toList ++ seen.written.toList

namespace RunController

/-- The control plane is polled; it may ask for a checkpoint. -/
def polled (c : RunController) (requested : Bool) : RunController :=
  if requested then c.requestCheckpoint else c

/-- The evaluation of an event, when its epoch is complete and the schedule selects it. -/
def evaluated (c : RunController) (direction : EvalDirection) (total : ℕ) (event : Event) :
    Except Error (RunController × Option EvalOutcome) :=
  if event.epochComplete && c.shouldEvaluate event.epoch total then
    (c.recordEvaluation event.loss direction (decide (event.epoch < total)) event.boundary
      event.globalStep).map fun (c, outcome) => (c, some outcome)
  else .ok (c, none)

/-- The boundary of an event, when it has one. -/
def bounded (c : RunController) (event : Event) : RunController × Option Checkpoint :=
  match event.boundary with
  | some boundary => c.checkpointBoundary boundary event.globalStep
  | none => (c, none)

/-- The controller's side of the event callback: the step is noted, the control plane polled, the
evaluation recorded, and only then the boundary considered. -/
def onEvent (c : RunController) (direction : EvalDirection) (total : ℕ) (event : Event) :
    Except Error (RunController × Seen) :=
  let c := (c.noteStep event.globalStep).polled event.requested
  match c.evaluated direction total event with
  | .error e => .error e
  | .ok (c, outcome) =>
    let (after, written) := c.bounded event
    .ok (after,
      { evaluation := outcome
        due := c.checkpointDue
        written
        keepTraining := outcome.all (·.keepTraining) && event.continues })

theorem onEvent_eq {c scored : RunController} {direction : EvalDirection} {total : ℕ}
    {event : Event} {outcome : Option EvalOutcome}
    (h : ((c.noteStep event.globalStep).polled event.requested).evaluated direction total event =
      .ok (scored, outcome)) :
    c.onEvent direction total event = .ok ((scored.bounded event).1,
      { evaluation := outcome
        due := scored.checkpointDue
        written := (scored.bounded event).2
        keepTraining := outcome.all (·.keepTraining) && event.continues }) := by
  simp only [onEvent, h]

/-- An event is handled as soon as its evaluation is. -/
theorem onEvent_ok {c c' : RunController} {direction : EvalDirection} {total : ℕ} {event : Event}
    {seen : Seen} (h : c.onEvent direction total event = .ok (c', seen)) :
    ∃ scored outcome, ((c.noteStep event.globalStep).polled event.requested).evaluated direction
      total event = .ok (scored, outcome) := by
  cases hscored : ((c.noteStep event.globalStep).polled event.requested).evaluated direction total
      event with
  | error e => simp [onEvent, hscored] at h
  | ok result => exact ⟨result.1, result.2, rfl⟩

/-- The events of a run in order. -/
def follow (c : RunController) (direction : EvalDirection) (total : ℕ) :
    List Event → Except Error (RunController × List Seen)
  | [] => .ok (c, [])
  | event :: events =>
    match c.onEvent direction total event with
    | .error e => .error e
    | .ok (c, seen) =>
      match c.follow direction total events with
      | .error e => .error e
      | .ok (c, rest) => .ok (c, seen :: rest)

end RunController

/-- The controller a run starts with: a fresh one, or one restored from what `load` reads. -/
def launch (config : RunConfig) (load : String → Progress) : RunController :=
  ((RunController.new config).begin load).1

/-- The step a run starts at. -/
def startStep (config : RunConfig) (load : String → Progress) : ℕ :=
  match config.checkpoint.bind (·.resumeFrom) with
  | none => 0
  | some path => (load path).globalStep

/-- The same run restarted from a checkpoint it wrote: what is loaded is what was saved. -/
def restart (config : RunConfig) (checkpoint : Checkpoint) : RunController :=
  launch (config.resuming checkpoint.path) fun _ => checkpoint.progress

end Retrograd.Run
