import Retrograd.Run.Controller

/-!
# The schedule between two boundaries

The pending flag is a function of the step the run has reached and of the step of the **last
boundary**: the schedule is armed for the first multiple of the cadence after that boundary, and
due once the run gets there (`Armed`). At a boundary the flag is spent and the next multiple is
counted from the boundary's own step, whether or not a checkpoint was due. What is left of the
state, the best value and the stale count, is what any checkpoint written there carries.
-/

namespace Retrograd.Run

open List Option
open Training (Boundary Error)

namespace RunController

/-! ### What one step changes -/

/-- A recorded evaluation moves the best value, the stale count and the stop flag; what it saves
carries the first two as it leaves them. -/
theorem recordEvaluation_ok {c c' : RunController} {value : Float} {direction : EvalDirection}
    {canStop : Bool} {boundary : Option Boundary} {step : ℕ} {outcome : EvalOutcome}
    (h : c.recordEvaluation value direction canStop boundary step = .ok (c', outcome)) :
    c' = { c with
      bestEval := c'.bestEval
      staleEvaluations := c'.staleEvaluations
      earlyStopped := c'.earlyStopped } ∧
    ∀ checkpoint ∈ outcome.saved, boundary.isSome ∧ c.checkpoint.isSome ∧
      checkpoint.progress.globalStep = step ∧ checkpoint.progress.bestEval = c'.bestEval ∧
      checkpoint.progress.staleEvaluations = c'.staleEvaluations := by
  unfold recordEvaluation at h
  split_ifs at h with hfinite
  cases hevaluation : c.evaluation with
  | none => simp [hevaluation] at h
  | some evaluation =>
    simp only [hevaluation] at h
    generalize direction.improves evaluation.minDelta value c.bestEval = improved at h
    cases hbest : (c.counted improved value).bestEval with
    | none => simp [hbest] at h
    | some best =>
      simp only [hbest, Except.ok.injEq, Prod.mk.injEq] at h
      obtain ⟨rfl, rfl⟩ := h
      refine ⟨by cases improved <;> simp [counted, hevaluation], ?_⟩
      intro checkpoint hsaved
      dsimp only at hsaved ⊢
      cases improved with
      | false => simp at hsaved
      | true =>
        simp only [if_true, saveBest] at hsaved
        cases hconfig : ((c.counted true value).checkpoint.filter (·.mode.includesBestEval)) with
        | none => simp [hconfig] at hsaved
        | some config =>
          cases boundary with
          | none => simp [hconfig] at hsaved
          | some boundary =>
            simp only [hconfig, mem_some_iff] at hsaved
            subst hsaved
            have hsome : c.checkpoint = some config := (filter_eq_some_iff.mp hconfig).1
            simp [writeCheckpoint, hsome, hbest]

/-- A finite value is always recorded by a controller that evaluates. -/
theorem recordEvaluation_isOk {c : RunController} {value : Float} (direction : EvalDirection)
    (canStop : Bool) (boundary : Option Boundary) (step : ℕ) (hfinite : value.isFinite = true)
    (hevaluation : c.evaluation.isSome) :
    ∃ result, c.recordEvaluation value direction canStop boundary step = .ok result := by
  obtain ⟨evaluation, hevaluation⟩ := isSome_iff_exists.mp hevaluation
  -- without a best value so far any value improves, so there is one afterwards
  have hbest : ∃ best,
      (c.counted (direction.improves evaluation.minDelta value c.bestEval) value).bestEval
        = some best := by
    cases himproved : direction.improves evaluation.minDelta value c.bestEval with
    | true => exact ⟨value, rfl⟩
    | false =>
      cases hnone : c.bestEval with
      | none => simp [hnone, EvalDirection.improves] at himproved
      | some best => exact ⟨best, by simp [counted, hnone]⟩
  obtain ⟨best, hbest⟩ := hbest
  simp [recordEvaluation, hfinite, hevaluation, hbest]

theorem evaluated_ok {c c' : RunController} {direction : EvalDirection} {total : ℕ}
    {event : Event} {outcome : Option EvalOutcome}
    (h : c.evaluated direction total event = .ok (c', outcome)) :
    c' = { c with
      bestEval := c'.bestEval
      staleEvaluations := c'.staleEvaluations
      earlyStopped := c'.earlyStopped } ∧
    ∀ checkpoint ∈ outcome.bind (·.saved), event.boundary.isSome ∧ c.checkpoint.isSome ∧
      checkpoint.progress.globalStep = event.globalStep ∧
      checkpoint.progress.bestEval = c'.bestEval ∧
      checkpoint.progress.staleEvaluations = c'.staleEvaluations := by
  unfold evaluated at h
  split_ifs at h with hselected
  · cases hrecord : c.recordEvaluation event.loss direction (decide (event.epoch < total))
        event.boundary event.globalStep with
    | error e => simp [hrecord, Except.map] at h
    | ok result =>
      simp only [hrecord, Except.map, Except.ok.injEq, Prod.mk.injEq] at h
      obtain ⟨rfl, rfl⟩ := h
      exact recordEvaluation_ok hrecord
  · simp only [Except.ok.injEq, Prod.mk.injEq] at h
    obtain ⟨rfl, rfl⟩ := h
    exact ⟨rfl, by simp⟩

theorem evaluated_isOk (c : RunController) (direction : EvalDirection) (total : ℕ) {event : Event}
    (hfinite : event.loss.isFinite = true) :
    ∃ result, c.evaluated direction total event = .ok result := by
  unfold evaluated
  split_ifs with hselected
  · have hevaluation : c.evaluation.isSome := by
      simp only [shouldEvaluate, Bool.and_eq_true] at hselected
      cases hnone : c.evaluation <;> simp_all
    obtain ⟨result, hresult⟩ := recordEvaluation_isOk direction (decide (event.epoch < total))
      event.boundary event.globalStep hfinite hevaluation
    exact ⟨_, by rw [hresult]; rfl⟩
  · exact ⟨_, rfl⟩

/-- A boundary leaves everything but the schedule's own three fields; what it writes carries the
state it was written in. -/
theorem bounded_keeps (c : RunController) (event : Event) :
    (c.bounded event).1 = { c with
      nextCheckpointStep := (c.bounded event).1.nextCheckpointStep
      checkpointDue := (c.bounded event).1.checkpointDue
      checkpointRequested := (c.bounded event).1.checkpointRequested } ∧
    ∀ checkpoint ∈ (c.bounded event).2, event.boundary.isSome ∧ c.checkpoint.isSome ∧
      checkpoint.progress.globalStep = event.globalStep ∧
      checkpoint.progress.bestEval = c.bestEval ∧
      checkpoint.progress.staleEvaluations = c.staleEvaluations := by
  unfold bounded
  cases hboundary : event.boundary with
  | none => simp
  | some boundary =>
    simp only [checkpointBoundary]
    split_ifs with hidle
    · simp
    · cases hconfig : c.checkpoint with
      | none => simp
      | some config => simp [writeCheckpoint]

/-! ### The schedule between two boundaries -/

/-- The controller of a run of `config` that has reached `step` and whose last boundary was at
`last`. -/
structure Armed (config : RunConfig) (last step : ℕ) (c : RunController) : Prop where
  evaluation : c.evaluation = config.evaluation
  checkpoint : c.checkpoint = config.checkpoint
  algorithm : c.algorithm = config.algorithm
  next : c.nextCheckpointStep = (stepCadence config.checkpoint).map (nextMultipleAfter last)
  due : c.checkpointDue = c.nextCheckpointStep.any (· ≤ step)
  le : last ≤ step

variable {config : RunConfig} {last step : ℕ} {c : RunController}

theorem Armed.noteStep (h : Armed config last step c) {reached : ℕ} (hle : step ≤ reached) :
    Armed config last reached (c.noteStep reached) := by
  have hdue : (c.noteStep reached).checkpointDue = c.nextCheckpointStep.any (· ≤ reached) := by
    cases hreached : c.nextCheckpointStep.any (· ≤ reached) with
    | true => simp [RunController.noteStep, hreached]
    | false =>
      -- a step that was due would have been reached by now
      have hnot : c.checkpointDue = false := by
        rw [h.due]
        cases hnext : c.nextCheckpointStep with
        | none => rfl
        | some next =>
          simp only [hnext, any_some, decide_eq_false_iff_not] at hreached ⊢
          omega
      simp [RunController.noteStep, hreached, hnot]
  have hkeeps : c.noteStep reached = { c with
      lastGlobalStep := reached, checkpointDue := (c.noteStep reached).checkpointDue } := by
    unfold RunController.noteStep
    dsimp only
    split_ifs <;> rfl
  rw [hkeeps]
  exact ⟨h.evaluation, h.checkpoint, h.algorithm, h.next, hdue, h.le.trans hle⟩

/-- The next multiple after a step has not been reached at it. -/
theorem next_not_reached (checkpoint : Option CheckpointConfig) (step : ℕ) :
    ((stepCadence checkpoint).map (nextMultipleAfter step)).any (· ≤ step) = false := by
  cases hcadence : stepCadence checkpoint with
  | none => rfl
  | some frequency =>
    have hlt := lt_nextMultipleAfter (stepCadence_pos hcadence) step
    simpa using hlt

/-- While nothing is due, counting the next multiple from the step reached changes nothing. -/
theorem Armed.rearmed (h : Armed config last step c) (hdue : c.checkpointDue = false) :
    c.nextCheckpointStep = (stepCadence config.checkpoint).map (nextMultipleAfter step) := by
  rw [h.next]
  rw [h.due, h.next] at hdue
  cases hcadence : stepCadence config.checkpoint with
  | none => rfl
  | some frequency =>
    simp only [hcadence, map_some, any_some, decide_eq_false_iff_not,
      not_le] at hdue
    rw [map_some, map_some,
      nextMultipleAfter_eq (stepCadence_pos hcadence) h.le hdue]

/-- At a boundary the schedule is rearmed from the boundary's own step, whether or not a
checkpoint was due. -/
theorem Armed.checkpointBoundary (h : Armed config last step c) (boundary : Boundary) :
    Armed config step step (c.checkpointBoundary boundary step).1 := by
  have hnot := next_not_reached config.checkpoint step
  unfold RunController.checkpointBoundary
  split_ifs with hidle
  · -- nothing is pending: the schedule stands, and stands as counted from here
    have hdue : c.checkpointDue = false := by simp_all
    have hnext := h.rearmed hdue
    exact ⟨h.evaluation, h.checkpoint, h.algorithm, hnext, h.due, le_rfl⟩
  · cases hconfig : c.checkpoint with
    | none =>
      have hcadence : stepCadence config.checkpoint = none := by
        rw [← h.checkpoint, hconfig]
        rfl
      have hdue : c.checkpointDue = false := by rw [h.due, h.next, hcadence]; rfl
      exact ⟨h.evaluation, hconfig.symm.trans h.checkpoint, h.algorithm, h.rearmed hdue, h.due, le_rfl⟩
    | some written =>
      have hwritten : config.checkpoint = some written := by rw [← h.checkpoint, hconfig]
      have hnext : c.movedOn written.everySteps step =
          (stepCadence config.checkpoint).map (nextMultipleAfter step) := by
        cases hdue : c.checkpointDue with
        | false => simpa only [movedOn, hdue] using h.rearmed hdue
        | true =>
          rw [hwritten, stepCadence_some]
          unfold movedOn
          rw [hdue]
          cases hsteps : written.everySteps with
          | none =>
            -- without a cadence nothing is ever due
            rw [h.due, h.next, hwritten, stepCadence_some, hsteps] at hdue
            cases hdue
          | some frequency => rfl
      refine ⟨h.evaluation, hconfig.symm.trans h.checkpoint, h.algorithm, hnext, ?_, le_rfl⟩
      dsimp only
      rw [hnext, hnot]

/-- What is pending at a boundary is spent there, on a run that writes checkpoints. -/
theorem checkpointBoundary_spent (c : RunController) (boundary : Boundary) (step : ℕ)
    (hconfig : c.checkpoint.isSome) :
    (c.checkpointBoundary boundary step).1.checkpointDue = false ∧
      (c.checkpointBoundary boundary step).1.checkpointRequested = false := by
  obtain ⟨config, hconfig⟩ := isSome_iff_exists.mp hconfig
  unfold checkpointBoundary
  split_ifs with hidle
  · simpa using hidle
  · simp [hconfig]

/-- A due checkpoint is written at the boundary. -/
theorem checkpointBoundary_written {c : RunController} {boundary : Boundary} {step : ℕ}
    (hdue : c.checkpointDue = true) (hconfig : c.checkpoint.isSome) :
    (c.checkpointBoundary boundary step).2.isSome := by
  obtain ⟨config, hconfig⟩ := isSome_iff_exists.mp hconfig
  simp [checkpointBoundary, hdue, hconfig]

/-- The step of the last boundary once `event` has been handled. -/
def lastBoundary (last : ℕ) (event : Event) : ℕ :=
  if event.boundary.isSome then event.globalStep else last

theorem Armed.bounded {event : Event} (h : Armed config last event.globalStep c) :
    Armed config (lastBoundary last event) event.globalStep (c.bounded event).1 := by
  unfold RunController.bounded lastBoundary
  cases event.boundary with
  | none => exact h
  | some boundary => exact h.checkpointBoundary boundary

/-- **One event.** A finite evaluation value is always handled, the schedule stays armed from the
last boundary, and it was due at the event exactly when the step has reached the next multiple
after the boundary before it. Whatever was written carries the state the event leaves. -/
theorem Armed.onEvent (h : Armed config last step c) (direction : EvalDirection) (total : ℕ)
    {event : Event} (hle : step ≤ event.globalStep) (hfinite : event.loss.isFinite = true) :
    ∃ c' seen, c.onEvent direction total event = .ok (c', seen) ∧
      Armed config (lastBoundary last event) event.globalStep c' ∧
      seen.due = ((stepCadence config.checkpoint).map (nextMultipleAfter last)).any
        (· ≤ event.globalStep) ∧
      (seen.due = true → event.boundary.isSome → seen.written.isSome) ∧
      (seen.written.isSome → event.boundary.isSome) ∧
      ∀ checkpoint ∈ seen.checkpoints, event.boundary.isSome ∧ config.checkpoint.isSome ∧
        c'.checkpointDue = false ∧ c'.checkpointRequested = false ∧
        checkpoint.progress.globalStep = event.globalStep ∧
        checkpoint.progress.bestEval = c'.bestEval ∧
        checkpoint.progress.staleEvaluations = c'.staleEvaluations := by
  have hnoted := h.noteStep hle
  -- a request touches neither the cadence nor the flag of the step schedule
  have harmed : Armed config last event.globalStep
      ((c.noteStep event.globalStep).polled event.requested) := by
    unfold polled
    split_ifs
    · exact ⟨hnoted.evaluation, hnoted.checkpoint, hnoted.algorithm, hnoted.next, hnoted.due,
        hnoted.le⟩
    · exact hnoted
  obtain ⟨⟨scored, outcome⟩, hscored⟩ := evaluated_isOk _ direction total hfinite
  obtain ⟨hkeeps, hsaved⟩ := evaluated_ok hscored
  have hbefore : Armed config last event.globalStep scored := by
    rw [hkeeps]
    exact ⟨harmed.evaluation, harmed.checkpoint, harmed.algorithm, harmed.next, harmed.due,
      harmed.le⟩
  refine ⟨(scored.bounded event).1, _, onEvent_eq hscored, ?_⟩
  obtain ⟨hbounded, hwritten⟩ := bounded_keeps scored event
  have hdue : scored.checkpointDue = ((stepCadence config.checkpoint).map
      (nextMultipleAfter last)).any (· ≤ event.globalStep) := by rw [hbefore.due, hbefore.next]
  refine ⟨hbefore.bounded, hdue, ?_, ?_, ?_⟩
  · intro hpending hboundary
    obtain ⟨boundary, hboundary⟩ := isSome_iff_exists.mp hboundary
    have hconfig : scored.checkpoint.isSome := by
      rw [hbefore.checkpoint]
      cases hnone : config.checkpoint with
      | none => simp [hdue, hnone, stepCadence] at hpending
      | some _ => rfl
    simpa [RunController.bounded, hboundary] using checkpointBoundary_written hpending hconfig
  · intro hwrote
    obtain ⟨checkpoint, hcheckpoint⟩ := isSome_iff_exists.mp hwrote
    exact (hwritten checkpoint hcheckpoint).1
  · intro checkpoint hcheckpoint
    -- the boundary changes neither the best value nor the stale count
    have hbest : (scored.bounded event).1.bestEval = scored.bestEval := by rw [hbounded]
    have hstale : (scored.bounded event).1.staleEvaluations = scored.staleEvaluations := by
      rw [hbounded]
    have hcarried : event.boundary.isSome ∧ scored.checkpoint.isSome ∧
        checkpoint.progress.globalStep = event.globalStep ∧
        checkpoint.progress.bestEval = scored.bestEval ∧
        checkpoint.progress.staleEvaluations = scored.staleEvaluations := by
      rcases mem_append.mp hcheckpoint with hbestOf | hboundaryOf
      · have hsaved := hsaved checkpoint (mem_toList.mp hbestOf)
        rw [harmed.checkpoint] at hsaved
        rw [hbefore.checkpoint]
        exact hsaved
      · exact hwritten checkpoint (mem_toList.mp hboundaryOf)
    obtain ⟨hboundary, hconfig, hstep, hbestOf, hstaleOf⟩ := hcarried
    obtain ⟨boundary, hboundary'⟩ := isSome_iff_exists.mp hboundary
    have hspent := checkpointBoundary_spent scored boundary event.globalStep hconfig
    have hat : scored.bounded event = scored.checkpointBoundary boundary event.globalStep := by
      simp [RunController.bounded, hboundary']
    rw [hbest, hstale, hat]
    exact ⟨hboundary, hbefore.checkpoint ▸ hconfig, hspent.1, hspent.2, hstep, hbestOf, hstaleOf⟩

end RunController
end Retrograd.Run
