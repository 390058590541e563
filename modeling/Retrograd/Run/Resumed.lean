import Retrograd.Run.Armed

/-!
# A resumed schedule continues the interrupted one

Nothing an event does depends on where the run was restarted from, on the last step noted or on
whether it once stopped, and a pending request only adds a checkpoint (`besides`). A restart from
a checkpoint is the controller its event left, besides those.
-/

namespace Retrograd.Run

open List Option
open Training (Boundary Error)

namespace RunController

/-- The same controller, besides what the schedule does not read. -/
def besides (c : RunController) (path : Option String) (step : ℕ) (stopped requested : Bool) :
    RunController :=
  { c with
    checkpoint := c.checkpoint.map (·.resuming path)
    lastGlobalStep := step
    earlyStopped := stopped
    checkpointRequested := requested }

variable (c : RunController) (path : Option String) (step : ℕ) (stopped requested : Bool)

theorem noteStep_besides (reached : ℕ) :
    (c.besides path step stopped requested).noteStep reached =
      (c.noteStep reached).besides path reached stopped requested := by
  cases hreached : c.nextCheckpointStep.any (· ≤ reached) <;> simp [noteStep, besides, hreached]

theorem shouldEvaluate_besides (iteration total : ℕ) :
    (c.besides path step stopped requested).shouldEvaluate iteration total =
      c.shouldEvaluate iteration total := rfl

theorem counted_besides (improved : Bool) (value : Float) :
    (c.besides path step stopped requested).counted improved value =
      (c.counted improved value).besides path step stopped requested := by
  cases improved <;> rfl

theorem saveBest_besides (boundary : Option Boundary) (reached : ℕ) :
    (c.besides path step stopped requested).saveBest boundary reached =
      c.saveBest boundary reached := by
  unfold saveBest
  cases hconfig : c.checkpoint with
  | none => simp [besides, hconfig]
  | some config =>
    cases hbest : config.mode.includesBestEval <;> cases boundary <;>
      simp [besides, hconfig, hbest, CheckpointConfig.resuming, Option.filter, writeCheckpoint]

theorem recordEvaluation_besides (value : Float) (direction : EvalDirection) (canStop : Bool)
    (boundary : Option Boundary) (reached : ℕ) :
    ∃ stopped', (c.besides path step stopped requested).recordEvaluation value direction canStop
        boundary reached =
      (c.recordEvaluation value direction canStop boundary reached).map fun result =>
        (result.1.besides path step stopped' requested, result.2) := by
  unfold recordEvaluation
  split_ifs with hfinite
  · exact ⟨stopped, rfl⟩
  · cases hevaluation : c.evaluation with
    | none => exact ⟨stopped, by simp [besides, hevaluation, Except.map]⟩
    | some evaluation =>
      have hsame : (c.besides path step stopped requested).evaluation = some evaluation :=
        hevaluation
      have hbest : (c.besides path step stopped requested).bestEval = c.bestEval := rfl
      simp only [hsame, hbest, counted_besides, saveBest_besides]
      generalize direction.improves evaluation.minDelta value c.bestEval = improved
      cases hvalue : (c.counted improved value).bestEval with
      | none => exact ⟨stopped, by simp [besides, hvalue, Except.map]⟩
      | some best => exact ⟨_, by simp only [besides, hvalue, Except.map]; rfl⟩

theorem evaluated_besides (direction : EvalDirection) (total : ℕ) (event : Event) :
    ∃ stopped', (c.besides path step stopped requested).evaluated direction total event =
      (c.evaluated direction total event).map fun result =>
        (result.1.besides path step stopped' requested, result.2) := by
  have hselects : (event.epochComplete &&
      (c.besides path step stopped requested).shouldEvaluate event.epoch total) =
      (event.epochComplete && c.shouldEvaluate event.epoch total) := rfl
  unfold evaluated
  cases hselected : event.epochComplete && c.shouldEvaluate event.epoch total with
  | false => exact ⟨stopped, by rw [if_neg (by simp [hselects, hselected]), if_neg (by simp)]; rfl⟩
  | true =>
    obtain ⟨stopped', h⟩ := recordEvaluation_besides c path step stopped requested event.loss
      direction (decide (event.epoch < total)) event.boundary event.globalStep
    refine ⟨stopped', ?_⟩
    rw [if_pos (by simp [hselects, hselected]), if_pos rfl, h]
    cases c.recordEvaluation event.loss direction (decide (event.epoch < total)) event.boundary
      event.globalStep <;> rfl

/-- A boundary writes what the schedule has due, whatever is requested; with the same request
pending it writes the same altogether. -/
theorem bounded_besides (event : Event) :
    ∃ requested', ((c.besides path step stopped requested).bounded event).1 =
        (c.bounded event).1.besides path step stopped requested' ∧
      (c.checkpointDue = true →
        ((c.besides path step stopped requested).bounded event).2 = (c.bounded event).2) ∧
      (requested = c.checkpointRequested →
        ((c.besides path step stopped requested).bounded event).2 = (c.bounded event).2 ∧
        requested' = (c.bounded event).1.checkpointRequested) := by
  unfold bounded
  cases event.boundary with
  | none => exact ⟨requested, rfl, fun _ => rfl, fun h => ⟨rfl, h⟩⟩
  | some boundary =>
    unfold checkpointBoundary
    cases hconfig : c.checkpoint <;> cases hdue : c.checkpointDue <;> cases requested <;>
      cases hrequested : c.checkpointRequested <;>
      simp [besides, hconfig, hdue, hrequested, movedOn, writeCheckpoint, CheckpointConfig.resuming]

end RunController

/-- The same event, with or without a request for a checkpoint. -/
def Event.asking (event : Event) (requested : Bool) : Event := { event with requested }

namespace RunController

theorem polled_besides (c : RunController) (path : Option String) (step : ℕ)
    (stopped requested asked : Bool) (asked' : Bool) :
    (c.besides path step stopped requested).polled asked' =
      (c.polled asked).besides path step stopped (asked' || requested) := by
  cases asked <;> cases asked' <;> rfl

theorem noteStep_requested (c : RunController) (step : ℕ) (asked : Bool) :
    ((c.noteStep step).polled asked).checkpointRequested = (asked || c.checkpointRequested) := by
  cases hreached : c.nextCheckpointStep.any (· ≤ step) <;> cases asked <;>
    simp [noteStep, polled, requestCheckpoint, hreached]

variable {direction : EvalDirection} {event : Event}

/-- **One event, seen twice.** Whatever is requested, the evaluation and the schedule go the same
way; with the same requests everything does. -/
theorem onEvent_besides {c c' : RunController} {total : ℕ} {seen : Seen}
    (h : c.onEvent direction total event = .ok (c', seen)) (path : Option String) (step : ℕ)
    (stopped requested asked : Bool) : ∃ step' stopped' requested' seen',
      (c.besides path step stopped requested).onEvent direction total (event.asking asked) =
        .ok (c'.besides path step' stopped' requested', seen') ∧
      seen'.evaluation = seen.evaluation ∧ seen'.scheduled = seen.scheduled ∧
      seen'.keepTraining = seen.keepTraining ∧
      (requested = c.checkpointRequested → asked = event.requested →
        seen' = seen ∧ requested' = c'.checkpointRequested) := by
  obtain ⟨scored, outcome, hscored⟩ := onEvent_ok h
  rw [onEvent_eq hscored, Except.ok.injEq, Prod.mk.injEq] at h
  obtain ⟨rfl, rfl⟩ := h
  obtain ⟨stopped', hscored'⟩ := evaluated_besides
    ((c.noteStep event.globalStep).polled event.requested) path event.globalStep stopped
    (asked || requested) direction total event
  obtain ⟨requested', hstate, hdue, hall⟩ := bounded_besides scored path event.globalStep stopped'
    (asked || requested) event
  have hpending : scored.checkpointRequested = (event.requested || c.checkpointRequested) := by
    rw [(evaluated_ok hscored).1]
    exact noteStep_requested c event.globalStep event.requested
  rw [← polled_besides _ path event.globalStep stopped requested event.requested asked,
    ← noteStep_besides c path step, hscored] at hscored'
  refine ⟨event.globalStep, stopped', requested', ⟨outcome, scored.checkpointDue,
    ((scored.besides path event.globalStep stopped' (asked || requested)).bounded event).2,
    outcome.all (·.keepTraining) && event.continues⟩, ?_, rfl, ?_, rfl, ?_⟩
  · rw [← hstate]
    exact onEvent_eq hscored'
  · simp only [Seen.scheduled]
    split_ifs with hpast
    · exact hdue hpast
    · rfl
  · intro hrequested hasked
    obtain ⟨hwritten, hleft⟩ := hall (by rw [hrequested, hasked, hpending])
    exact ⟨by rw [hwritten], hleft⟩

/-! ### Whole runs -/

variable {events : List Event}

theorem follow_cons {c c' final : RunController} {total : ℕ} {seen : Seen} {rest : List Seen}
    (hevent : c.onEvent direction total event = .ok (c', seen))
    (hrest : c'.follow direction total events = .ok (final, rest)) :
    c.follow direction total (event :: events) = .ok (final, seen :: rest) := by
  simp only [follow, hevent, hrest]

variable {c final : RunController} {seens : List Seen}

theorem follow_cons_ok {total : ℕ}
    (h : c.follow direction total (event :: events) = .ok (final, seens)) :
    ∃ c' seen rest, c.onEvent direction total event = .ok (c', seen) ∧
      c'.follow direction total events = .ok (final, rest) ∧ seens = seen :: rest := by
  unfold follow at h
  cases hevent : c.onEvent direction total event with
  | error e => simp [hevent] at h
  | ok result =>
    cases hrest : result.1.follow direction total events with
    | error e => simp [hevent, hrest] at h
    | ok tail =>
      simp only [hevent, hrest, Except.ok.injEq, Prod.mk.injEq] at h
      exact ⟨result.1, result.2, tail.2, rfl, by rw [hrest, ← h.1], h.2.symm⟩

/-- **The same events, seen twice.** Two controllers that differ in nothing the schedule reads see
a run the same way. -/
theorem follow_besides {total : ℕ} (h : c.follow direction total events = .ok (final, seens))
    (path : Option String) (step : ℕ) (stopped : Bool) :
    ∃ step' stopped', (c.besides path step stopped c.checkpointRequested).follow direction total
      events = .ok (final.besides path step' stopped' final.checkpointRequested, seens) := by
  induction events generalizing c step stopped seens with
  | nil =>
    simp only [follow, Except.ok.injEq, Prod.mk.injEq] at h
    obtain ⟨rfl, rfl⟩ := h
    exact ⟨step, stopped, rfl⟩
  | cons event events ih =>
    obtain ⟨c', seen, rest, hevent, hrest, rfl⟩ := follow_cons_ok h
    obtain ⟨step', stopped', requested', seen', hevent', -, -, -, hsame⟩ :=
      onEvent_besides hevent path step stopped c.checkpointRequested event.requested
    obtain ⟨rfl, rfl⟩ := hsame rfl rfl
    obtain ⟨step'', stopped'', hrest'⟩ := ih hrest step' stopped'
    exact ⟨step'', stopped'', follow_cons hevent' hrest'⟩

/-- **The same events, asked differently.** Requests change neither an evaluation nor the
schedule. -/
theorem follow_asking {total : ℕ} {events asked : List Event}
    (h : c.follow direction total events = .ok (final, seens)) (path : Option String) (step : ℕ)
    (stopped requested : Bool) (hasked : asked.map (·.asking false) = events.map (·.asking false)) :
    ∃ step' stopped' requested' seens',
      (c.besides path step stopped requested).follow direction total asked =
        .ok (final.besides path step' stopped' requested', seens') ∧
      seens'.map Seen.evaluation = seens.map Seen.evaluation ∧
      seens'.map Seen.scheduled = seens.map Seen.scheduled := by
  induction events generalizing c step stopped requested seens asked with
  | nil =>
    obtain rfl : asked = [] := by simpa using hasked
    simp only [follow, Except.ok.injEq, Prod.mk.injEq] at h
    obtain ⟨rfl, rfl⟩ := h
    exact ⟨step, stopped, requested, [], rfl, rfl, rfl⟩
  | cons event events ih =>
    obtain ⟨head, asked, rfl⟩ : ∃ head tail, asked = head :: tail := by
      cases asked with
      | nil => simp at hasked
      | cons head tail => exact ⟨head, tail, rfl⟩
    simp only [map_cons, cons.injEq] at hasked
    have hhead : head = event.asking head.requested :=
      congrArg (·.asking head.requested) hasked.1
    obtain ⟨c', seen, rest, hevent, hrest, rfl⟩ := follow_cons_ok h
    obtain ⟨step', stopped', requested', seen', hevent', hevaluation, hscheduled, -, -⟩ :=
      onEvent_besides hevent path step stopped requested head.requested
    rw [← hhead] at hevent'
    obtain ⟨step'', stopped'', requested'', rest', hrest', hevaluations, hschedule⟩ :=
      ih hrest step' stopped' requested' hasked.2
    refine ⟨step'', stopped'', requested'', seen' :: rest', follow_cons hevent' hrest', ?_, ?_⟩
    · rw [map_cons, map_cons, hevaluation, hevaluations]
    · rw [map_cons, map_cons, hscheduled, hschedule]

end RunController

/-! ### Launches -/

@[simp] theorem stepCadence_resuming (checkpoint : Option CheckpointConfig)
    (path : Option String) :
    stepCadence (checkpoint.map (·.resuming path)) = stepCadence checkpoint := by
  cases checkpoint with
  | none => rfl
  | some config =>
    rw [map_some, stepCadence_some, stepCadence_some]
    rfl

/-- A launch is armed from the step it starts at: the first multiple of a fresh run is the first
multiple after zero. -/
theorem launch_armed (config : RunConfig) (load : String → Progress) :
    RunController.Armed config (startStep config load) (startStep config load)
      (launch config load) := by
  have hnot := RunController.next_not_reached config.checkpoint (startStep config load)
  have hnext : (launch config load).nextCheckpointStep =
      (stepCadence config.checkpoint).map (nextMultipleAfter (startStep config load)) := by
    cases hresume : config.checkpoint.bind (·.resumeFrom) <;>
      cases hcadence : stepCadence config.checkpoint <;>
      simp [launch, startStep, RunController.begin, RunController.new, hresume, hcadence]
  have hrest : (launch config load).evaluation = config.evaluation ∧
      (launch config load).checkpoint = config.checkpoint ∧
      (launch config load).algorithm = config.algorithm ∧
      (launch config load).checkpointDue = false := by
    cases hresume : config.checkpoint.bind (·.resumeFrom) <;>
      cases hcadence : stepCadence config.checkpoint <;>
      simp [launch, RunController.begin, RunController.new, hresume, hcadence]
  obtain ⟨hevaluation, hcheckpoint, halgorithm, hdue⟩ := hrest
  exact ⟨hevaluation, hcheckpoint, halgorithm, hnext, by rw [hdue, hnext, hnot], le_rfl⟩

variable {config : RunConfig}

/-- **A restart rebuilds the schedule.** With nothing pending after a boundary, a restart from a
checkpoint that carries the controller's best value, stale count and step is that controller,
besides what the schedule does not read. -/
theorem restart_eq {checkpoint : Checkpoint} {c : RunController}
    (h : RunController.Armed config checkpoint.progress.globalStep checkpoint.progress.globalStep c)
    (hconfig : config.checkpoint.isSome) (hdue : c.checkpointDue = false)
    (hrequested : c.checkpointRequested = false)
    (hbest : checkpoint.progress.bestEval = c.bestEval)
    (hstale : checkpoint.progress.staleEvaluations = c.staleEvaluations) :
    restart config checkpoint = c.besides (some checkpoint.path) 0 false c.checkpointRequested := by
  obtain ⟨written, hwritten⟩ := isSome_iff_exists.mp hconfig
  have hcadence := stepCadence_resuming config.checkpoint (some checkpoint.path)
  have hresume : (written.resuming (some checkpoint.path)).resumeFrom = some checkpoint.path := rfl
  rw [hwritten, map_some] at hcadence
  cases hsteps : stepCadence (some written) <;>
  · rw [hsteps] at hcadence
    simp [restart, launch, RunController.begin, RunController.new, RunConfig.resuming,
      RunController.besides, hresume, hwritten, hcadence, h.evaluation, h.checkpoint,
      h.algorithm, h.next, hsteps, hdue, hrequested, hbest, hstale]

/-! ### The cadence over a run -/

/-- A run passes its cadence at `event`: it has a boundary, and the first boundary at or after some
multiple of the cadence past `start` is this one. -/
def Passes (config : RunConfig) (start : ℕ) (before : List Event) (event : Event) : Prop :=
  event.boundary.isSome ∧ ∃ frequency, stepCadence config.checkpoint = some frequency ∧
    ∃ multiple, frequency ∣ multiple ∧ start < multiple ∧ multiple ≤ event.globalStep ∧
      ∀ earlier ∈ before, earlier.boundary.isSome → earlier.globalStep < multiple

theorem passes_cons {last : ℕ} {first event : Event} {before : List Event}
    (hle : last ≤ first.globalStep) : Passes config last (first :: before) event ↔
      Passes config (RunController.lastBoundary last first) before event := by
  unfold Passes RunController.lastBoundary
  refine and_congr_right fun _ => exists_congr fun frequency => and_congr_right fun _ =>
    exists_congr fun multiple => and_congr_right fun _ => ?_
  simp only [forall_mem_cons]
  split_ifs with hboundary
  · constructor
    · rintro ⟨-, hreached, hfirst, hbefore⟩
      exact ⟨hfirst hboundary, hreached, hbefore⟩
    · rintro ⟨hfirst, hreached, hbefore⟩
      exact ⟨hle.trans_lt hfirst, hreached, fun _ => hfirst, hbefore⟩
  · constructor
    · rintro ⟨hstart, hreached, -, hbefore⟩
      exact ⟨hstart, hreached, hbefore⟩
    · rintro ⟨hstart, hreached, hbefore⟩
      exact ⟨hstart, hreached, fun h => absurd h hboundary, hbefore⟩

/-- What holds of one event of a run: the schedule writes there exactly when the cadence is passed,
and a restart from anything written there goes on as the run did. -/
structure Continued (config : RunConfig) (direction : EvalDirection) (total start : ℕ)
    (before : List Event) (event : Event) (seen : Seen) (after : List Event) (rest : List Seen)
    (final : RunController) : Prop where
  scheduled : seen.scheduled.isSome ↔ Passes config start before event
  step : ∀ checkpoint ∈ seen.scheduled, checkpoint.progress.globalStep = event.globalStep
  resumes : ∀ checkpoint ∈ seen.checkpoints, ∃ step stopped,
    (restart config checkpoint).follow direction total after =
      .ok (final.besides (some checkpoint.path) step stopped final.checkpointRequested, rest)

/-- At the first event of a run the schedule writes exactly when the next multiple was passed. -/
theorem scheduled_iff {last : ℕ} {event : Event} {seen : Seen}
    (hdue : seen.due = ((stepCadence config.checkpoint).map (nextMultipleAfter last)).any (· ≤ event.globalStep))
    (hwrites : seen.due = true → event.boundary.isSome → seen.written.isSome)
    (hat : seen.written.isSome → event.boundary.isSome) :
    seen.scheduled.isSome ↔ Passes config last [] event := by
  have hpassed : seen.due = true ↔ ∃ frequency, stepCadence config.checkpoint = some frequency ∧
      ∃ multiple, frequency ∣ multiple ∧ last < multiple ∧ multiple ≤ event.globalStep := by
    rw [hdue]
    cases hcadence : stepCadence config.checkpoint with
    | none => simp
    | some frequency =>
      simp [nextMultipleAfter_le_iff (stepCadence_pos hcadence)]
  have hscheduled : seen.scheduled.isSome ↔ seen.due = true ∧ event.boundary.isSome := by
    unfold Seen.scheduled
    split_ifs with h
    · exact ⟨fun hwritten => ⟨h, hat hwritten⟩, fun hboth => hwrites h hboth.2⟩
    · simp [h]
  rw [hscheduled, hpassed, and_comm]
  simp [Passes]

/-- **A whole run.** Finite evaluation values are all handled; at every event the schedule writes
as the cadence says, and everything written can be restarted from. -/
theorem RunController.Armed.follow {last step : ℕ} {c : RunController}
    (h : RunController.Armed config last step c) (direction : EvalDirection) (total : ℕ)
    {events : List Event} (hmono : (step :: events.map Event.globalStep).Pairwise (· ≤ ·))
    (hfinite : ∀ event ∈ events, event.loss.isFinite = true) :
    ∃ final seens, c.follow direction total events = .ok (final, seens) ∧
      seens.length = events.length ∧
      ∀ i event seen, events[i]? = some event → seens[i]? = some seen →
        Continued config direction total last (events.take i) event seen (events.drop (i + 1))
          (seens.drop (i + 1)) final := by
  induction events generalizing c last step with
  | nil => exact ⟨c, [], rfl, rfl, by simp⟩
  | cons first events ih =>
    have hle : step ≤ first.globalStep := by simp_all
    obtain ⟨c', seen, hevent, harmed, hdue, hwrites, hat, hcarried⟩ :=
      h.onEvent direction total hle (hfinite first (by simp))
    obtain ⟨final, rest, hrest, hlength, hall⟩ := ih harmed
      (by simpa using (pairwise_cons.mp hmono).2) (fun event hmem => hfinite event (by simp [hmem]))
    refine ⟨final, seen :: rest, follow_cons hevent hrest, by simp [hlength], ?_⟩
    rintro (_ | i) event seen' hi hs
    · obtain rfl : first = event := by simpa using hi
      obtain rfl : seen = seen' := by simpa using hs
      refine ⟨by simpa using scheduled_iff hdue hwrites hat, ?_, ?_⟩
      · intro checkpoint hscheduled
        have hmem : checkpoint ∈ seen.checkpoints := by
          unfold Seen.scheduled at hscheduled
          split_ifs at hscheduled
          · exact mem_append_right _ (mem_toList.mpr hscheduled)
          · simp at hscheduled
        exact (hcarried checkpoint hmem).2.2.2.2.1
      · intro checkpoint hmem
        obtain ⟨hboundary, hconfig, hpending, hrequested, hstep, hbest, hstale⟩ :=
          hcarried checkpoint hmem
        rw [RunController.lastBoundary, if_pos hboundary, ← hstep] at harmed
        rw [restart_eq harmed hconfig hpending hrequested hbest hstale]
        exact RunController.follow_besides hrest (some checkpoint.path) 0 false
    · have hcontinued := hall i event seen' (by simpa using hi) (by simpa using hs)
      refine ⟨?_, hcontinued.step, hcontinued.resumes⟩
      rw [hcontinued.scheduled, take_succ_cons, passes_cons (h.le.trans hle)]

/-- Besides its own path, step and flags a controller is itself. -/
theorem RunController.besides_self (c : RunController) :
    c.besides (c.checkpoint.bind (·.resumeFrom)) c.lastGlobalStep c.earlyStopped
      c.checkpointRequested = c := by
  obtain ⟨_, _ | _, _, _, _, _, _, _, _, _⟩ := c <;> rfl

/-- **A resumed schedule continues the interrupted one.** A run launched fresh or from a checkpoint
follows any events with non-decreasing steps and finite evaluation values to the end. At each of
them the schedule writes a checkpoint exactly when the event is the first boundary at or after
some multiple of the cadence, and a restart from anything written there sees every later event as
this run did and ends in the same schedule. Asking for other checkpoints changes neither an
evaluation, nor a scheduled checkpoint, nor where the cadence stands. -/
theorem schedule_resumes (config : RunConfig) (load : String → Progress)
    (direction : EvalDirection) (total : ℕ) (events : List Event)
    (hmono : (startStep config load :: events.map Event.globalStep).Pairwise (· ≤ ·))
    (hfinite : ∀ event ∈ events, event.loss.isFinite = true) :
    ∃ final seens, (launch config load).follow direction total events = .ok (final, seens) ∧
      seens.length = events.length ∧
      (∀ i event seen, events[i]? = some event → seens[i]? = some seen →
        Continued config direction total (startStep config load) (events.take i) event seen
          (events.drop (i + 1)) (seens.drop (i + 1)) final) ∧
      ∀ asked : List Event, asked.map (·.asking false) = events.map (·.asking false) →
        ∃ final' seens', (launch config load).follow direction total asked =
            .ok (final', seens') ∧
          seens'.map Seen.evaluation = seens.map Seen.evaluation ∧
          seens'.map Seen.scheduled = seens.map Seen.scheduled ∧
          final'.nextCheckpointStep = final.nextCheckpointStep := by
  obtain ⟨final, seens, hrun, hlength, hall⟩ :=
    (launch_armed config load).follow direction total hmono hfinite
  refine ⟨final, seens, hrun, hlength, hall, ?_⟩
  intro asked hasked
  obtain ⟨step, stopped, requested, seens', hrun', hevaluation, hscheduled⟩ :=
    RunController.follow_asking hrun ((launch config load).checkpoint.bind (·.resumeFrom))
      (launch config load).lastGlobalStep (launch config load).earlyStopped
      (launch config load).checkpointRequested hasked
  rw [RunController.besides_self] at hrun'
  exact ⟨_, seens', hrun', hevaluation, hscheduled, rfl⟩

/-- Checkpoints every ten steps and at the best evaluation. -/
def everyTen : RunConfig where
  algorithm := "sft"
  evaluation := some { everyIterations := 1, patience := some 2, minDelta := 0 }
  checkpoint := some
    { directory := "checkpoints"
      mode := .stepsAndBestEval
      everySteps := some 10
      resumeFrom := none
      steps_set := fun _ => ⟨10, rfl, by decide⟩
      only_steps := fun h => absurd h (by decide) }

/-- Two epochs of thirteen steps; a checkpoint is asked for in the first. -/
def twoEpochs : List Event :=
  [⟨1, 4, false, none, true, true, 0⟩, ⟨1, 13, true, some ⟨1, 0, none⟩, false, true, 1.5⟩,
    ⟨2, 26, true, some ⟨2, 0, none⟩, false, true, 1.25⟩]

theorem schedule_resumes_everyTen :
    ∃ final seens, (launch everyTen fun _ => ⟨1, 0, 0, 0, "sft", "train", none, 0, none⟩).follow
        .lower 2 twoEpochs = .ok (final, seens) ∧
      seens.length = 3 ∧
      ∀ seen, seens[1]? = some seen → seen.scheduled.isSome := by
  obtain ⟨final, seens, hrun, hlength, hall, -⟩ := schedule_resumes everyTen
    (fun _ => ⟨1, 0, 0, 0, "sft", "train", none, 0, none⟩) .lower 2 twoEpochs (by decide)
    (by decide +kernel)
  refine ⟨final, seens, hrun, hlength, fun seen hseen => ?_⟩
  rw [(hall 1 _ seen rfl hseen).scheduled]
  exact ⟨rfl, 10, rfl, 10, by decide, by decide, by decide, by decide⟩

end Retrograd.Run
