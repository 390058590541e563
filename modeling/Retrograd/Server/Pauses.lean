import Mathlib.Algebra.Group.Prod
import Retrograd.Server.Ends

/-!
# What a live run publishes of itself

The status is written by the requests and by the run's own poll, while the pause itself lives on
the run's side of the command queue. The two agree **as long as no request acts on a pause that
does not stand** (`paced_live`): a resume is sent to a run that is asked to pause only once it is
paused, a pause is announced, or answered without being sent, only while it still stands, and none
is sent behind a cancellation. Otherwise a pause and a resume read in one batch leave a run that
trains and says `pausing` for good, and a pause read behind a cancellation blocks the run it was to
stop (`unpaced_not_paced`).
-/

namespace Retrograd.Server

open Logic List
open Relation (ReflTransGen)

/-! ### What the unread commands come to -/

/-- Whether a pause stands after one more command. -/
def RunCommand.standing (asked : Bool) : RunCommand → Bool
  | .pause => true
  | .resume | .cancel _ _ => false
  | .checkpoint | .trainer _ => asked

def RunCommand.isCancel : RunCommand → Bool
  | .cancel _ _ => true
  | _ => false

/-- Whether the run is asked to pause, once it has read what it was sent. -/
def Run.asked (run : Run) : Bool := run.queue.foldl RunCommand.standing run.control.paused

/-- Whether a cancellation was sent, read or not. -/
def Run.cancelSent (run : Run) : Bool :=
  run.control.cancel.isSome || run.queue.any RunCommand.isCancel

/-- No pause waits behind a cancellation. -/
def quietAfter : Bool → List RunCommand → Bool
  | _, [] => true
  | cancelled, .pause :: rest => !cancelled && quietAfter cancelled rest
  | _, .cancel _ _ :: rest => quietAfter true rest
  | cancelled, .resume :: rest | cancelled, .checkpoint :: rest
  | cancelled, .trainer _ :: rest => quietAfter cancelled rest

theorem ChannelControl.apply_paused (control : ChannelControl) (command : RunCommand) :
    (control.apply command).1.paused = command.standing control.paused := by
  cases command <;> rfl

theorem ChannelControl.apply_cancel (control : ChannelControl) (command : RunCommand) :
    (control.apply command).1.cancel.isSome = (control.cancel.isSome || command.isCancel) := by
  cases command <;> simp [apply, RunCommand.isCancel]

theorem quietAfter_cons {cancelled : Bool} {command : RunCommand} {rest : List RunCommand}
    (h : quietAfter cancelled (command :: rest)) :
    quietAfter (cancelled || command.isCancel) rest ∧ (cancelled → command ≠ .pause) := by
  cases command <;> cases cancelled <;> simp_all [quietAfter, RunCommand.isCancel]

/-- A command at the end of the queue, no pause behind a cancellation. -/
theorem quietAfter_append {cancelled : Bool} {queue : List RunCommand} {command : RunCommand}
    (h : quietAfter cancelled queue)
    (hcommand : command = .pause → (cancelled || queue.any RunCommand.isCancel) = false) :
    quietAfter cancelled (queue ++ [command]) := by
  induction queue generalizing cancelled with
  | nil => cases command <;> cases cancelled <;> simp_all [quietAfter]
  | cons first rest ih =>
    cases first <;> cases cancelled <;> simp_all [quietAfter, RunCommand.isCancel]

variable {run run' : Run} {handler handler' : Handler} {m : ℕ}

theorem Run.asked_send {command : RunCommand} :
    ({ run with queue := run.queue ++ [command] } : Run).asked = command.standing run.asked := by
  simp [Run.asked]

theorem Run.cancelSent_send {command : RunCommand} :
    ({ run with queue := run.queue ++ [command] } : Run).cancelSent =
      (run.cancelSent || command.isCancel) := by
  simp [Run.cancelSent, Bool.or_assoc]

/-! ### What any step does to the commands -/

/-- A step of the run itself reads the next command, or leaves them all. -/
inductive Run.Reads (run run' : Run) : Prop
  | same (control : run'.control = run.control) (queue : run'.queue = run.queue)
  | read (command : RunCommand) (queue : run.queue = command :: run'.queue)
    (control : run'.control = (run.control.apply command).1)

/-- Any step does that, or queues a command. -/
inductive Run.Commands (run run' : Run) : Prop
  | reads (h : run.Reads run')
  | sent (command : RunCommand) (control : run'.control = run.control)
    (queue : run'.queue = run.queue ++ [command])

/-- Reading a command changes neither what stands nor what was sent. -/
theorem Run.Reads.asked (h : run.Reads run') :
    run'.asked = run.asked ∧ run'.cancelSent = run.cancelSent := by
  unfold Run.asked Run.cancelSent
  cases h with
  | same control queue => rw [control, queue]; exact ⟨rfl, rfl⟩
  | read command queue control =>
    rw [queue, foldl_cons, any_cons, control, ChannelControl.apply_paused,
      ChannelControl.apply_cancel, Bool.or_assoc]
    exact ⟨rfl, rfl⟩

/-- A cancellation stays sent. -/
theorem Run.Commands.cancelSent (h : run.Commands run') (hsent : run.cancelSent) :
    run'.cancelSent := by
  cases h with
  | reads h => rw [h.asked.2, hsent]
  | sent command control queue =>
    unfold Run.cancelSent at hsent ⊢
    rw [control, queue, any_append, ← Bool.or_assoc, hsent, Bool.true_or]

/-- A cancellation as strong as another: `now` stays now, a requested checkpoint requested. -/
def PendingCancel.Keeps (cancel later : PendingCancel) : Prop :=
  (cancel.cancelAt = .now → later.cancelAt = .now) ∧ (cancel.checkpoint → later.checkpoint)

/-- **A pending cancellation is never weakened**, whatever is read after it. -/
theorem Run.Commands.keeps (h : run.Commands run') {cancel : PendingCancel}
    (hcancel : run.control.cancel = some cancel) :
    ∃ later, run'.control.cancel = some later ∧ cancel.Keeps later := by
  have hsame : cancel.Keeps cancel := ⟨id, id⟩
  cases h with
  | sent command control queue => exact ⟨cancel, by rw [control, hcancel], hsame⟩
  | reads h =>
    cases h with
    | same control queue => exact ⟨cancel, by rw [control, hcancel], hsame⟩
    | read command queue control =>
      rw [control]
      cases command with
      | cancel cancelAt checkpoint =>
        refine ⟨_, rfl, fun hnow => ?_, fun hcheckpoint => ?_⟩
        · simp [hcancel, hnow]
        · simp [hcancel, hcheckpoint]
      | _ => exact ⟨cancel, hcancel, hsame⟩

variable {fault : Option String}

private theorem Run.supervise_reads (h : run.supervise fault = some run') : run.Reads run' := by
  unfold Run.supervise at h
  split at h
  · cases h
    exact .same rfl rfl
  · cases fault <;> cases h <;> exact .same rfl rfl
  · split at h <;> cases h <;> exact .same rfl rfl
  · cases h
    exact .same rfl rfl
  · cases fault <;> cases h <;> exact .same rfl rfl
  · split at h <;> cases h <;> exact .same rfl rfl
  · cases h
    exact .same rfl rfl
  · split at h <;> cases h <;> exact .same rfl rfl
  · cases h
    exact .same rfl rfl
  · split at h <;> cases h
    exact .same rfl rfl

variable {atBoundary : Bool}

private theorem Run.poll_reads {stage : PollStage} (h : run.poll atBoundary stage = some run') :
    run.Reads run' := by
  unfold Run.poll at h
  split at h
  · split at h
    · next command rest hqueue =>
      cases h
      exact .read command hqueue rfl
    · cases h
      exact .same rfl rfl
  · cases h
    exact .same rfl rfl
  · cases h
    exact .same rfl rfl
  · cases h
    exact .same rfl rfl
  · split at h
    · next command rest hqueue =>
      cases h
      exact .read command hqueue rfl
    · cases h
  · cases h
    exact .same rfl rfl
  · cases h
    exact .same rfl rfl
  · cases h
    exact .same rfl rfl

variable {deed : Deed}

private theorem Run.work_reads (h : run.work deed = some run') : run.Reads run' := by
  unfold Run.work at h
  split at h
  · cases h
    exact .same rfl rfl
  · cases h
  · cases h
  · cases deed with
    | report payload =>
      dsimp only at h
      split at h <;> cases h
      exact .same rfl rfl
    | _ =>
      cases h
      try exact .same rfl rfl
  · cases h
    exact .same rfl rfl
  · cases deed with
    | report payload =>
      dsimp only at h
      split at h <;> cases h
      exact .same rfl rfl
    | _ =>
      cases h
      try exact .same rfl rfl
  · exact Run.poll_reads h
  · cases h
    exact .same rfl rfl

theorem Run.advance_commands {choice : Choice} (h : run.advance choice = some run') :
    run.Commands run' := by
  cases choice with
  | supervise fault => exact .reads (Run.supervise_reads h)
  | work deed => exact .reads (Run.work_reads h)
  | ask log =>
    obtain ⟨-, -, rfl⟩ := Run.send_eq_some h
    exact .sent _ rfl rfl
  | askCheckpoint =>
    obtain ⟨-, -, rfl⟩ := Run.send_eq_some h
    exact .sent _ rfl rfl

/-- A handler touches the commands only where it sends its own. -/
theorem Handler.handle_queue (h : handler.handle run = some (handler', run')) :
    run'.control = run.control ∧ run'.queue = run.queue ∨
      handler.agent.stage = .send ∧ run'.control = run.control ∧
        run'.queue = run.queue ++ [handler.request.command] := by
  unfold Handler.handle at h
  dsimp only at h
  split at h
  · cases h
    exact .inl ⟨rfl, rfl⟩
  · cases h
    exact .inl ⟨rfl, rfl⟩
  · next hagent =>
    split at h
    · cases h
      exact .inl ⟨rfl, rfl⟩
    · next run'' hsent =>
      obtain ⟨-, -, rfl⟩ := Run.send_eq_some hsent
      cases h
      exact .inr ⟨by rw [hagent], rfl, rfl⟩
  · split at h
    · cases h
    · cases h
      exact .inl ⟨rfl, rfl⟩
  · cases h
    exact .inl ⟨rfl, rfl⟩
  · cases h
    exact .inl ⟨rfl, rfl⟩
  · cases h

theorem Handler.handle_commands (h : handler.handle run = some (handler', run')) :
    run.Commands run' := by
  rcases Handler.handle_queue h with ⟨hcontrol, hqueue⟩ | ⟨-, hcontrol, hqueue⟩
  · exact .reads (.same hcontrol hqueue)
  · exact .sent _ hcontrol hqueue

/-! ### The requests that must find their pause -/

/-- A step of a handler acts on a pause that stands. -/
def Handler.Paced (handler : Handler) (run : Run) : Prop :=
  match handler.request, handler.agent with
  -- answered without being sent
  | .pause, ⟨[], .read⟩ => run.state.status = .pausing ∨ run.state.status = .paused → run.asked
  | .pause, ⟨[], .send⟩ => run.cancelSent = false
  | .pause, ⟨[], .announce⟩ =>
    run.state.status = .starting ∨ run.state.status = .running → run.asked
  | .resume, ⟨[], .send⟩ => run.asked → run.state.status = .paused
  | _, _ => True

/-- A step of the server in which every request acts on a pause that stands. -/
abbrev ServesPaced : Serving → Serving → Prop :=
  Interleaved (fun run run' => ∃ choice, run.advance choice = some run')
    (fun handler => ∃ request, handler = .new request)
    fun handler run handler' run' =>
      handler.Paced run ∧ handler.handle run = some (handler', run')

/-- A run its supervisor has just moved to `starting`. -/
def Run.launched : Run :=
  { Run.new with
    state := ⟨.starting, none, [.queued, .starting]⟩, supervisor := ⟨[.status .starting], .spawn⟩ }

/-- The start of every live run. -/
def Serving.live : Serving := ⟨.launched, []⟩

/-! ### The invariant -/

/-- The run is asked to stop training for a while, or for good, or has just done so. -/
def Run.Calls (run : Run) : Prop := run.asked ∨ run.cancelSent ∨ run.state.status = .paused

/-- What the worker knows of its own flag where it is. -/
def Run.Follows (run : Run) : Prop :=
  match run.worker.stage with
  | .polling stage _ => match stage with
    | .drain => True
    | .loop => run.control.paused → run.Calls
    | .toPausing | .toPaused | .recv => run.control.paused ∧ run.Calls
    | .wake | .toRunning | .flow => run.control.paused = false
  | .polled atBoundary flow checkpoint =>
    run.control.paused = false ∧ run.control.flow atBoundary = (flow, checkpoint)
  | _ => True

/-- The supervisor has launched the run. -/
def SupervisorStage.isPast : SupervisorStage → Bool
  | .permit | .check | .launch => false
  | _ => true

/-- The invariant of a live run, of whose cancellations `m` are sent and not yet announced. -/
structure Steady (run : Run) (m : ℕ) : Prop where
  past : run.supervisor.stage.isPast
  begun : run.state.status.isEarly = false
  pausing : run.state.status = .pausing → run.asked ∨ run.cancelSent
  sent : run.cancelSent → 0 < m ∨ run.state.status = .cancelling ∨ run.state.status.isTerminal
  cancelling : run.state.status = .cancelling → run.cancelSent
  quiet : quietAfter run.control.cancel.isSome run.queue
  unpaused : run.control.cancel.isSome → run.control.paused = false
  follows : run.Follows

theorem Run.launched_steady : Steady .launched 0 where
  past := rfl
  begun := rfl
  pausing := fun h => nomatch h
  sent := fun h => nomatch h
  cancelling := fun h => nomatch h
  quiet := rfl
  unpaused := fun h => nomatch h
  follows := trivial

theorem Run.launched_orderly : Orderly .launched 0 where
  lawful := ⟨.cons_cons rfl (.singleton _), rfl⟩
  ends := rfl
  reports := by simp [launched, new, RunEventPayload.isTerminal]
  quiet := rfl
  idle := fun _ => rfl
  admits := fun h => nomatch h
  errs := fun h => nomatch h
  phase := ⟨rfl, rfl⟩

/-- A step that changes none of what the invariant speaks of. -/
theorem Steady.same (h : Steady run m) (hstatus : run'.state.status = run.state.status)
    (hcontrol : run'.control = run.control) (hqueue : run'.queue = run.queue)
    (hstage : run'.worker.stage = run.worker.stage)
    (hpast : run'.supervisor.stage.isPast) : Steady run' m := by
  have hasked : run'.asked = run.asked := by rw [Run.asked, Run.asked, hqueue, hcontrol]
  have hsent : run'.cancelSent = run.cancelSent := by
    rw [Run.cancelSent, Run.cancelSent, hqueue, hcontrol]
  have hcalls : run'.Calls ↔ run.Calls := by rw [Run.Calls, Run.Calls, hasked, hsent, hstatus]
  refine ⟨hpast, ?_, ?_, ?_, ?_, ?_, ?_, ?_⟩
  · rw [hstatus]
    exact h.begun
  · rw [hstatus, hasked, hsent]
    exact h.pausing
  · rw [hstatus, hsent]
    exact h.sent
  · rw [hstatus, hsent]
    exact h.cancelling
  · rw [hcontrol, hqueue]
    exact h.quiet
  · rw [hcontrol]
    exact h.unpaused
  · have hfollows := h.follows
    unfold Run.Follows at hfollows ⊢
    rwa [hstage, hcontrol, hcalls]

/-- The end of a run whose worker is idle. -/
theorem Steady.over (h : Steady run m) (hterminal : run'.state.status.isTerminal)
    (hcontrol : run'.control = run.control) (hqueue : run'.queue = run.queue)
    (hidle : run'.worker.stage.isIdle) (hpast : run'.supervisor.stage.isPast) :
    Steady run' m where
  past := hpast
  begun := by
    revert hterminal
    cases run'.state.status <;> simp [RunStatus.isTerminal, RunStatus.isEarly]
  pausing := fun hstatus => by simp [hstatus, RunStatus.isTerminal] at hterminal
  sent := fun _ => .inr (.inr hterminal)
  cancelling := fun hstatus => by simp [hstatus, RunStatus.isTerminal] at hterminal
  quiet := by
    rw [hcontrol, hqueue]
    exact h.quiet
  unpaused := by
    rw [hcontrol]
    exact h.unpaused
  follows := by
    unfold Run.Follows
    split
    · next hstage =>
      rw [hstage] at hidle
      cases hidle
    · next hstage =>
      rw [hstage] at hidle
      cases hidle
    · trivial

/-- Every step of the supervisor of a launched run keeps the invariant. -/
theorem Steady.supervise (h : Steady run m) {due : ℕ} (horderly : Orderly run due)
    (hstep : run.supervise fault = some run') : Steady run' m := by
  have hphase := horderly.phase
  have hpast := h.past
  unfold Supervised at hphase
  obtain ⟨outbox, stage, hsupervisor⟩ : ∃ outbox stage, run.supervisor = ⟨outbox, stage⟩ :=
    ⟨_, _, rfl⟩
  unfold Run.supervise at hstep
  rw [hsupervisor] at hstep hphase hpast
  cases outbox with
  | cons payload rest =>
    cases hstep
    exact h.same rfl rfl rfl rfl hpast
  | nil =>
    cases stage with
    | permit => cases hpast
    | check => cases hpast
    | launch => cases hpast
    | spawn =>
      cases fault with
      | none =>
        cases hstep
        exact ⟨rfl, h.begun, h.pausing, h.sent, h.cancelling, h.quiet, h.unpaused, trivial⟩
      | some error =>
        cases hstep
        exact h.same rfl rfl rfl rfl rfl
    | join =>
      dsimp only at hstep
      split at hstep
      · cases hstep
        exact h.same rfl rfl rfl rfl rfl
      · cases hstep
        exact h.same rfl rfl rfl rfl rfl
      · cases hstep
        exact h.same rfl rfl rfl rfl rfl
      · cases hstep
    | ending cancelled =>
      obtain ⟨-, early, hworker⟩ := hphase
      have hidle : run.worker.stage.isIdle := by
        rw [hworker]
        rfl
      dsimp only at hstep
      obtain ⟨status, hdef⟩ : ∃ status : RunStatus,
        (if cancelled then .cancelled else .completed) = status := ⟨_, rfl⟩
      have hterminal : status.isTerminal := by
        subst hdef
        cases cancelled <;> rfl
      rw [hdef] at hstep
      cases hstep
      rcases run.state.publish_status status with hmoved | ⟨hkept, -⟩
      · refine h.over ?_ rfl rfl hidle rfl
        show (run.state.publish status).1.status.isTerminal
        rwa [hmoved]
      · exact h.same hkept rfl rfl rfl rfl
    | failing message =>
      obtain ⟨-, -, hidle⟩ := hphase
      dsimp only at hstep
      split at hstep
      · next state hmoved =>
        cases hstep
        have hstate := RunState.publish_status run.state .failed
        unfold RunState.publish at hstate
        rw [hmoved] at hstate
        rcases hstate with hfailed | ⟨hkept, -⟩
        · refine h.over ?_ rfl rfl hidle rfl
          show state.status.isTerminal
          rw [show state.status = .failed from hfailed]
          rfl
        · exact h.same hkept rfl rfl rfl rfl
      · cases hstep
        exact h.same rfl rfl rfl rfl rfl
      · cases hstep
        exact h.same rfl rfl rfl rfl rfl
    | refused message =>
      cases hstep
      exact h.same rfl rfl rfl rfl rfl
    | done =>
      dsimp only at hstep
      split at hstep <;> cases hstep
      exact h.same rfl rfl rfl rfl rfl

variable {stage : WorkerStage}

/-- The worker goes to a stage. -/
theorem Steady.goes (h : Steady run m) {outbox : List RunEventPayload} {listening : Bool}
    (hfollows : ({ run with listening, worker := ⟨outbox, stage⟩ } : Run).Follows) :
    Steady { run with listening, worker := ⟨outbox, stage⟩ } m :=
  ⟨h.past, h.begun, h.pausing, h.sent, h.cancelling, h.quiet, h.unpaused, hfollows⟩

/-- The worker moves a live run, to `pausing` only when it calls for it. -/
theorem Steady.work_transition (h : Steady run m) (hlive : run.state.status.isLive)
    {status : RunStatus} (htarget : status = .running ∨ status = .pausing ∨ status = .paused)
    (hcalls : status = .pausing → run.Calls) {also : List RunEventPayload}
    (hfollows : (run.workTransition status also stage).Follows) :
    Steady (run.workTransition status also stage) m := by
  rcases run.state.publish_cases status with ⟨heq, -⟩ | ⟨hallowed, -, heq⟩
  · have hstatus : (run.workTransition status also stage).state.status = run.state.status := by
      show (run.state.publish status).1.status = _
      rw [heq]
    refine ⟨h.past, ?_, ?_, ?_, ?_, h.quiet, h.unpaused, hfollows⟩
    · rw [hstatus]
      exact h.begun
    · rw [hstatus]
      exact h.pausing
    · rw [hstatus]
      exact h.sent
    · rw [hstatus]
      exact h.cancelling
  · have hstatus : (run.workTransition status also stage).state.status = status := by
      show (run.state.publish status).1.status = _
      rw [heq]
    refine ⟨h.past, ?_, ?_, ?_, ?_, h.quiet, h.unpaused, hfollows⟩
    · rw [hstatus]
      rcases htarget with rfl | rfl | rfl <;> rfl
    · rw [hstatus]
      intro hpausing
      rcases hcalls hpausing with hasked | hsent | hpaused
      · exact .inl hasked
      · exact .inr hsent
      · rw [hpaused, hpausing] at hallowed
        cases hallowed
    · rw [hstatus]
      intro hsent
      rcases h.sent hsent with hm | hcancelling | hterminal
      · exact .inl hm
      · rw [hcancelling] at hallowed
        rcases htarget with rfl | rfl | rfl <;> cases hallowed
      · rw [RunStatus.not_terminal_of_live hlive] at hterminal
        cases hterminal
    · rw [hstatus]
      rintro rfl
      rcases htarget with h | h | h <;> cases h

/-- The worker reads a command. -/
theorem Steady.receive (h : Steady run m) {command : RunCommand} {rest : List RunCommand}
    (hqueue : run.queue = command :: rest) (hfollows : (run.receive command rest stage).Follows) :
    Steady (run.receive command rest stage) m := by
  have hreads : run.Reads (run.receive command rest stage) := .read command hqueue rfl
  obtain ⟨hasked, hsent⟩ := hreads.asked
  have hquiet := h.quiet
  rw [hqueue] at hquiet
  obtain ⟨hrest, hcommand⟩ := quietAfter_cons hquiet
  refine ⟨h.past, h.begun, ?_, ?_, ?_, ?_, ?_, hfollows⟩
  · rw [hasked, hsent]
    exact h.pausing
  · rw [hsent]
    exact h.sent
  · rw [hsent]
    exact h.cancelling
  · show quietAfter (run.control.apply command).1.cancel.isSome rest
    rwa [ChannelControl.apply_cancel]
  · show (run.control.apply command).1.cancel.isSome → (run.control.apply command).1.paused = false
    rw [ChannelControl.apply_cancel, ChannelControl.apply_paused]
    intro hcancelled
    cases command with
    | pause =>
      have hbefore : run.control.cancel.isSome := by
        simpa [RunCommand.isCancel] using hcancelled
      exact absurd rfl (hcommand hbefore)
    | resume => rfl
    | cancel cancelAt checkpoint => rfl
    | checkpoint => exact h.unpaused (by simpa [RunCommand.isCancel] using hcancelled)
    | trainer log => exact h.unpaused (by simpa [RunCommand.isCancel] using hcancelled)

/-- Every step inside a poll keeps the invariant. -/
theorem Steady.poll (h : Steady run m) (hlive : run.state.status.isLive) {stage : PollStage}
    (hworker : run.worker = ⟨[], .polling stage atBoundary⟩)
    (hstep : run.poll atBoundary stage = some run') : Steady run' m := by
  have hfollows := h.follows
  unfold Run.Follows at hfollows
  rw [hworker] at hfollows
  cases stage with
  | drain =>
    unfold Run.poll at hstep
    dsimp only at hstep
    split at hstep
    · next command rest hqueue =>
      cases hstep
      exact h.receive hqueue trivial
    · next hqueue =>
      cases hstep
      refine h.goes fun hpaused => .inl ?_
      show run.queue.foldl RunCommand.standing run.control.paused
      rw [hqueue]
      exact hpaused
  | loop =>
    cases hstep
    refine h.goes ?_
    unfold Run.Follows
    cases hpaused : run.control.paused with
    | true => exact ⟨rfl, hfollows hpaused⟩
    | false => exact rfl
  | toPausing =>
    cases hstep
    obtain ⟨hpaused, hcalls⟩ := hfollows
    refine h.work_transition hlive (.inr (.inl rfl)) (fun _ => hcalls) ⟨hpaused, ?_⟩
    -- a paused run is not moved back to `pausing`
    refine hcalls.imp_right fun hrest => hrest.imp_right fun hstatus => ?_
    show (run.state.publish .pausing).1.status = .paused
    rcases run.state.publish_cases .pausing with ⟨heq, -⟩ | ⟨hallowed, -, -⟩
    · rw [heq, hstatus]
    · rw [hstatus] at hallowed
      cases hallowed
  | toPaused =>
    cases hstep
    obtain ⟨hpaused, hcalls⟩ := hfollows
    refine h.work_transition hlive (.inr (.inr rfl)) (fun heq => by cases heq) ⟨hpaused, ?_⟩
    refine hcalls.imp_right fun hrest => hrest.imp_right fun hstatus => ?_
    show (run.state.publish .paused).1.status = .paused
    rcases run.state.publish_status .paused with hmoved | ⟨hkept, -⟩
    · exact hmoved
    · rw [hkept, hstatus]
  | recv =>
    unfold Run.poll at hstep
    dsimp only at hstep
    split at hstep
    · next command rest hqueue =>
      cases hstep
      have hreads : run.Reads (run.receive command rest (.polling .loop atBoundary)) :=
        .read command hqueue rfl
      obtain ⟨hasked, hsent⟩ := hreads.asked
      refine h.receive hqueue fun _ => ?_
      unfold Run.Calls
      rw [hasked, hsent]
      exact hfollows.2
    · cases hstep
  | wake =>
    cases hstep
    by_cases hstatus : run.state.status = .paused
    · rw [if_pos hstatus]
      exact h.goes hfollows
    · rw [if_neg hstatus]
      exact h.goes hfollows
  | toRunning =>
    cases hstep
    exact h.work_transition hlive (.inl rfl) (fun heq => by cases heq) hfollows
  | flow =>
    cases hstep
    exact h.goes ⟨hfollows, rfl⟩

/-- **Every step of the worker keeps the invariant.** -/
theorem Steady.work (h : Steady run m) {due : ℕ} (horderly : Orderly run due)
    (hstep : run.work deed = some run') : Steady run' m := by
  obtain ⟨outbox, stage, hworker⟩ : ∃ outbox stage, run.worker = ⟨outbox, stage⟩ := ⟨_, _, rfl⟩
  unfold Run.work at hstep
  rw [hworker] at hstep
  cases outbox with
  | cons payload rest =>
    cases hstep
    exact h.same rfl rfl rfl (by rw [hworker]) h.past
  | nil =>
    cases stage with
    | unstarted => cases hstep
    | loading =>
      cases deed with
      | report payload =>
        dsimp only at hstep
        split at hstep <;> cases hstep
        exact h.goes trivial
      | poll atBoundary => cases hstep
      | finish earlyStopped => cases hstep
      | proceed =>
        cases hstep
        exact h.goes trivial
      | fail message =>
        cases hstep
        exact h.goes trivial
      | panic text =>
        cases hstep
        exact h.goes trivial
    | announcing =>
      have hlive := (horderly.working (by rw [hworker]; rfl)).2
      cases hstep
      exact h.work_transition hlive (.inl rfl) (fun heq => by cases heq) trivial
    | looping =>
      cases deed with
      | report payload =>
        dsimp only at hstep
        split at hstep <;> cases hstep
        exact h.goes trivial
      | proceed => cases hstep
      | poll atBoundary =>
        cases hstep
        exact h.goes trivial
      | finish earlyStopped =>
        cases hstep
        exact h.goes trivial
      | fail message =>
        cases hstep
        exact h.goes trivial
      | panic text =>
        cases hstep
        exact h.goes trivial
    | polling stage atBoundary =>
      exact h.poll (horderly.working (by rw [hworker]; rfl)).2 hworker hstep
    | polled atBoundary flow checkpoint =>
      cases hstep
      exact h.goes trivial
    | returned outcome => cases hstep

/-! ### The requests -/

/-- Whether a handler has sent a cancellation it has not announced. -/
def Handler.cancels (handler : Handler) : ℕ :=
  match handler.request, handler.agent.stage with
  | .cancel _ _, .announce => 1
  | _, _ => 0

/-- What a handler on a live run knows. -/
structure Handler.KnowsLive (handler : Handler) (run : Run) : Prop where
  live : handler.agent.stage ≠ .cancelQueued
  sent : handler.agent.stage = .announce → handler.request.command.isCancel → run.cancelSent

theorem Run.Follows.of_calls (h : run.Follows) (hcontrol : run'.control = run.control)
    (hstage : run'.worker.stage = run.worker.stage) (hcalls : run.Calls → run'.Calls) :
    run'.Follows := by
  unfold Run.Follows at h ⊢
  rw [hstage, hcontrol]
  revert h
  cases run.worker.stage with
  | polling stage atBoundary =>
    cases stage with
    | loop => exact fun h hpaused => hcalls (h hpaused)
    | toPausing => exact fun h => ⟨h.1, hcalls h.2⟩
    | toPaused => exact fun h => ⟨h.1, hcalls h.2⟩
    | recv => exact fun h => ⟨h.1, hcalls h.2⟩
    | _ => exact id
  | _ => exact id

/-- A request queues its command. -/
theorem Steady.send (h : Steady run m) {request : Request}
    (hpaced : (Handler.mk request ⟨[], .send⟩).Paced run) {m' : ℕ}
    (hm : m ≤ m') (hcancel : request.command.isCancel → 0 < m') :
    Steady { run with queue := run.queue ++ [request.command] } m' := by
  have hasked := @Run.asked_send run request.command
  have hsent := @Run.cancelSent_send run request.command
  have hcancelled : run.cancelSent →
      ({ run with queue := run.queue ++ [request.command] } : Run).cancelSent := fun hsent' => by
    rw [hsent, hsent', Bool.true_or]
  refine ⟨h.past, h.begun, fun hpausing => ?_, fun hsent' => ?_, fun hcancelling => ?_, ?_,
    h.unpaused, ?_⟩
  · rcases h.pausing hpausing with hbefore | hbefore
    · cases request with
      | pause => exact .inl (by rw [hasked]; rfl)
      | resume =>
        have hpaused := hpaced hbefore
        rw [show run.state.status = .pausing from hpausing] at hpaused
        cases hpaused
      | cancel cancelAt checkpoint => exact .inr (by rw [hsent]; simp [Request.command,
          RunCommand.isCancel])
    · exact .inr (hcancelled hbefore)
  · rw [hsent, Bool.or_eq_true] at hsent'
    rcases hsent' with hbefore | hcommand
    · exact (h.sent hbefore).imp_left fun hpos => hpos.trans_le hm
    · exact .inl (hcancel hcommand)
  · exact hcancelled (h.cancelling hcancelling)
  · refine quietAfter_append h.quiet fun hpause => ?_
    cases request with
    | pause => exact hpaced
    | resume => cases hpause
    | cancel cancelAt checkpoint => cases hpause
  · refine h.follows.of_calls rfl rfl fun hcalls => ?_
    cases request with
    | pause => exact .inl (by rw [hasked]; rfl)
    | resume =>
      rcases hcalls with hbefore | hbefore | hpaused
      · exact .inr (.inr (hpaced hbefore))
      · exact .inr (.inl (hcancelled hbefore))
      · exact .inr (.inr hpaused)
    | cancel cancelAt checkpoint =>
      exact .inr (.inl (by rw [hsent]; simp [Request.command, RunCommand.isCancel]))

/-- A pause that stands is announced. -/
theorem Steady.announce_pause (h : Steady run m)
    (hpaced : run.state.status = .starting ∨ run.state.status = .running → run.asked) :
    Steady { run with state := (run.state.publish .pausing).1 } m := by
  rcases run.state.publish_cases .pausing with ⟨heq, -⟩ | ⟨hallowed, hother, heq⟩
  · rw [heq]
    exact h.same rfl rfl rfl rfl h.past
  · rw [heq]
    have hfrom : run.state.status = .starting ∨ run.state.status = .running := by
      revert hallowed hother
      cases run.state.status <;> simp [transitionAllowed]
    have hasked : run.asked := hpaced hfrom
    refine ⟨h.past, rfl, fun _ => .inl hasked, fun hsent => ?_,
      (fun hcancelling => by cases hcancelling), h.quiet, h.unpaused,
      h.follows.of_calls rfl rfl fun _ => .inl hasked⟩
    rcases h.sent hsent with hm | hstatus | hterminal
    · exact .inl hm
    · rcases hfrom with hstarting | hrunning
      · rw [hstatus] at hstarting
        cases hstarting
      · rw [hstatus] at hrunning
        cases hrunning
    · rcases hfrom with hstarting | hrunning
      · rw [hstarting] at hterminal
        cases hterminal
      · rw [hrunning] at hterminal
        cases hterminal

/-- A cancellation is announced: a live run is cancelling from then on. -/
theorem Steady.announce_cancel {k : ℕ} (h : Steady run k) (hsent : run.cancelSent) :
    Steady { run with state := (run.state.publish .cancelling).1 } m := by
  have hstatus : (run.state.publish .cancelling).1.status = .cancelling ∨
      (run.state.publish .cancelling).1.status = run.state.status ∧
        run.state.status.isTerminal := by
    refine (run.state.publish_status .cancelling).imp_right fun ⟨hkept, hrefused⟩ => ⟨hkept, ?_⟩
    have hbegun := h.begun
    revert hrefused hbegun
    cases run.state.status <;> simp [transitionAllowed, RunStatus.isEarly, RunStatus.isTerminal]
  refine ⟨h.past, ?_, fun _ => .inr hsent, fun _ => .inr ?_, fun _ => hsent, h.quiet, h.unpaused,
    h.follows.of_calls rfl rfl fun _ => .inr (.inl hsent)⟩
  · rcases hstatus with hmoved | ⟨hkept, -⟩
    · show (run.state.publish .cancelling).1.status.isEarly = false
      rw [hmoved]
      rfl
    · show (run.state.publish .cancelling).1.status.isEarly = false
      rw [hkept]
      exact h.begun
  · rcases hstatus with hmoved | ⟨hkept, hterminal⟩
    · exact .inl hmoved
    · exact .inr (by rwa [hkept])

/-- What a handler knows survives the steps of the others: a cancellation stays sent. -/
theorem Handler.KnowsLive.mono (h : handler.KnowsLive run)
    (hsent : run.cancelSent → run'.cancelSent) : handler.KnowsLive run' :=
  ⟨h.live, fun hstage hcancel => hsent (h.sent hstage hcancel)⟩

/-- On a live run no request is answered by ending the run on the spot. -/
theorem Request.dispatch_live {request : Request} {status : RunStatus}
    (h : status.isEarly = false) :
    request.dispatch status ≠ .cancelQueued ∧ request.dispatch status ≠ .announce := by
  cases request with
  | cancel cancelAt checkpoint =>
    unfold Request.dispatch
    dsimp only
    split
    · simp
    · cases status <;> simp_all [RunStatus.isEarly]
  | _ => cases status <;> simp [Request.dispatch]

/-- **Every paced step of a handler keeps the invariant**, and what the handler knows. -/
theorem Steady.handle (h : Steady run (handler.cancels + m)) (hknows : handler.KnowsLive run)
    (hpaced : handler.Paced run) (hstep : handler.handle run = some (handler', run')) :
    Steady run' (handler'.cancels + m) ∧ handler'.KnowsLive run' := by
  obtain ⟨request, outbox, stage⟩ := handler
  cases outbox with
  | cons payload rest =>
    cases hstep
    have heq : (Handler.mk request ⟨rest, stage⟩).cancels =
        (Handler.mk request ⟨payload :: rest, stage⟩).cancels := rfl
    rw [heq]
    exact ⟨h.same rfl rfl rfl rfl h.past, hknows.live, hknows.sent⟩
  | nil =>
    -- away from `announce` a handler has nothing sent and unannounced
    have hzero : ∀ (outbox : List RunEventPayload) (stage : HandlerStage), stage ≠ .announce →
        (Handler.mk request ⟨outbox, stage⟩).cancels = 0 := by
      intro outbox stage hstage
      cases request <;> cases stage <;> first | rfl | exact absurd rfl hstage
    cases stage with
    | read =>
      cases hstep
      obtain ⟨hlive, hannounce⟩ := @Request.dispatch_live request _ h.begun
      rw [hzero [] .read (by simp)] at h
      rw [hzero [] _ hannounce]
      exact ⟨h, hlive, fun hstage => absurd hstage hannounce⟩
    | send =>
      unfold Handler.handle at hstep
      dsimp only at hstep
      split at hstep
      · cases hstep
        rw [hzero [] .send (by simp)] at h
        rw [hzero [] _ (by simp)]
        exact ⟨h, (fun h => by cases h), fun h => by cases h⟩
      · next run'' hsend =>
        obtain ⟨-, -, rfl⟩ := Run.send_eq_some hsend
        cases hstep
        rw [hzero [] .send (by simp), Nat.zero_add] at h
        refine ⟨h.send hpaced (Nat.le_add_left _ _) fun hcancel => ?_, ?_, fun _ hcancel => ?_⟩
        · cases request with
          | cancel cancelAt checkpoint => exact Nat.add_pos_left Nat.one_pos _
          | _ => cases hcancel
        · cases request <;> simp [Request.announces]
        · rw [Run.cancelSent_send, show request.command.isCancel from hcancel, Bool.or_true]
    | announce =>
      unfold Handler.handle at hstep
      dsimp only at hstep
      cases request with
      | resume => cases hstep
      | pause =>
        cases hstep
        exact ⟨h.announce_pause hpaced, (fun h => by cases h), fun h => by cases h⟩
      | cancel cancelAt checkpoint =>
        cases hstep
        exact ⟨h.announce_cancel (hknows.sent rfl rfl), (fun h => by cases h),
          fun h => by cases h⟩
    | cancelQueued => exact absurd rfl hknows.live
    | accept =>
      cases hstep
      rw [hzero [] .accept (by simp)] at h
      rw [hzero [] _ (by simp)]
      exact ⟨h, (fun h => by cases h), fun h => by cases h⟩
    | answered answer => cases hstep

/-- Another route asks something of the run. -/
theorem Steady.ask (h : Steady run m) {command : RunCommand}
    (hcommand : command = .checkpoint ∨ ∃ log, command = .trainer log) :
    Steady { run with queue := run.queue ++ [command] } m := by
  have hasked : ({ run with queue := run.queue ++ [command] } : Run).asked = run.asked := by
    rw [Run.asked_send]
    obtain rfl | ⟨log, rfl⟩ := hcommand <;> rfl
  have hsent : ({ run with queue := run.queue ++ [command] } : Run).cancelSent =
      run.cancelSent := by
    rw [Run.cancelSent_send]
    obtain rfl | ⟨log, rfl⟩ := hcommand <;> simp [RunCommand.isCancel]
  refine ⟨h.past, h.begun, ?_, ?_, ?_, quietAfter_append h.quiet fun hpause => ?_, h.unpaused,
    h.follows.of_calls rfl rfl ?_⟩
  · rw [hasked, hsent]
    exact h.pausing
  · rw [hsent]
    exact h.sent
  · rw [hsent]
    exact h.cancelling
  · subst hpause
    obtain h | ⟨log, h⟩ := hcommand <;> cases h
  · unfold Run.Calls
    rw [hasked, hsent]
    exact id

/-! ### Every run -/

/-- What holds of a live run, of whose ends the handlers have `share.1` to report and of whose
cancellations `share.2` to announce. -/
structure Live (run : Run) (share : ℕ × ℕ) : Prop where
  orderly : Orderly run share.1
  steady : Steady run share.2

/-- A launched run is launched no more, so its steps are all timely. -/
theorem Live.timely {share : ℕ × ℕ} (h : Live run share) (choice : Choice) :
    Timely choice run := by
  have hpast := h.steady.past
  unfold Timely
  split
  · next hsupervisor =>
    rw [hsupervisor] at hpast
    cases hpast
  · next hsupervisor =>
    rw [hsupervisor] at hpast
    cases hpast
  · trivial

theorem Handler.KnowsLive.timely (h : handler.KnowsLive run) : handler.Timely run := by
  unfold Handler.Timely
  split
  · next hagent => exact absurd (by rw [hagent]) h.live
  · trivial

/-- **What every paced step of the server keeps.** -/
theorem paced_kept : Kept (fun run run' => ∃ choice, run.advance choice = some run')
    (fun handler : Handler => ∃ request, handler = .new request)
    (fun (handler : Handler) run handler' run' =>
      handler.Paced run ∧ handler.handle run = some (handler', run'))
    Live (fun (handler : Handler) run => handler.Knows run ∧ handler.KnowsLive run)
    (fun handler : Handler => (handler.due, handler.cancels)) where
  ownInv := by
    rintro run run' share h ⟨choice, hstep⟩
    refine ⟨served_kept.ownInv _ _ _ h.orderly ⟨choice, h.timely choice, hstep⟩, ?_⟩
    cases choice with
    | supervise fault => exact h.steady.supervise h.orderly hstep
    | work deed => exact h.steady.work h.orderly hstep
    | ask log =>
      obtain ⟨-, -, rfl⟩ := Run.send_eq_some hstep
      exact h.steady.ask (.inr ⟨log, rfl⟩)
    | askCheckpoint =>
      obtain ⟨-, -, rfl⟩ := Run.send_eq_some hstep
      exact h.steady.ask (.inl rfl)
  ownKnows := by
    rintro run run' handler share - ⟨choice, hstep⟩ ⟨hknows, hlive⟩
    exact ⟨hknows.next (Run.advance_next hstep),
      hlive.mono (Run.advance_commands hstep).cancelSent⟩
  freshInv := by
    rintro run _ share h ⟨request, rfl⟩
    obtain ⟨horderly, hknows⟩ := served_kept.freshInv _ _ _ h.orderly ⟨request, rfl⟩
    have hsteady : Steady run ((Handler.new request).cancels + share.2) := by
      have hzero : (Handler.new request).cancels = 0 := by cases request <;> rfl
      rw [hzero, Nat.zero_add]
      exact h.steady
    exact ⟨⟨horderly, hsteady⟩, hknows, (fun h => by cases h), fun h => by cases h⟩
  stepInv := by
    rintro handler run handler' run' share h ⟨hknows, hlive⟩ ⟨hpaced, hstep⟩
    obtain ⟨horderly, hknows'⟩ :=
      served_kept.stepInv _ _ _ _ _ h.orderly hknows ⟨hlive.timely, hstep⟩
    obtain ⟨hsteady, hlive'⟩ := h.steady.handle hlive hpaced hstep
    exact ⟨⟨horderly, hsteady⟩, hknows', hlive'⟩
  stepKnows := by
    rintro handler run handler' run' other share - - ⟨hknows, hlive⟩ ⟨-, hstep⟩
    exact ⟨hknows.next (Handler.handle_next hstep),
      hlive.mono (Handler.handle_commands hstep).cancelSent⟩

/-! ### A pause that is not taken back -/

/-- A command that takes no pause back. -/
def RunCommand.leaves (command : RunCommand) : Bool := command.standing true

/-- A step of the server that sends neither a resume nor a cancellation. -/
abbrev ServesQuietly : Serving → Serving → Prop :=
  Interleaved (fun run run' => ∃ choice, run.advance choice = some run')
    (fun handler => ∃ request, handler = .new request)
    fun handler run handler' run' =>
      (handler.agent.stage = .send → handler.request = .pause) ∧ handler.Paced run ∧
        handler.handle run = some (handler', run')

/-- The poll that is on its way will not go on while the pause stands. -/
def Run.Halts (run : Run) : Prop :=
  match run.worker.stage with
  | .polling stage _ => match stage with
    | .drain => run.asked
    | .loop | .toPausing | .toPaused | .recv =>
      run.control.paused ∧ run.queue.all RunCommand.leaves
    | .wake | .toRunning | .flow => False
  | _ => False

variable {c c' : Serving}

/-- A quiet step queues no command but a pause, or one that only talks to the trainer. -/
theorem ServesQuietly.sends (h : ServesQuietly c c') :
    (∃ deed, c.shared.work deed = some c'.shared) ∨
      (∃ fault, c.shared.supervise fault = some c'.shared) ∨
      c'.shared.worker.stage = c.shared.worker.stage ∧ c'.shared.control = c.shared.control ∧
        (c'.shared.queue = c.shared.queue ∨
          ∃ command, command.leaves ∧ c'.shared.queue = c.shared.queue ++ [command]) := by
  cases h with
  | own threads h =>
    obtain ⟨choice, h⟩ := h
    cases choice with
    | work deed => exact .inl ⟨deed, h⟩
    | supervise fault => exact .inr (.inl ⟨fault, h⟩)
    | ask log =>
      obtain ⟨-, -, rfl⟩ := Run.send_eq_some h
      exact .inr (.inr ⟨rfl, rfl, .inr ⟨_, rfl, rfl⟩⟩)
    | askCheckpoint =>
      obtain ⟨-, -, rfl⟩ := Run.send_eq_some h
      exact .inr (.inr ⟨rfl, rfl, .inr ⟨_, rfl, rfl⟩⟩)
  | spawn run threads h => exact .inr (.inr ⟨rfl, rfl, .inl rfl⟩)
  | @act run run' handler handler' before after h =>
    obtain ⟨hquiet, -, h⟩ := h
    refine .inr (.inr ⟨Handler.handle_worker h, ?_⟩)
    have hsend := Handler.handle_queue h
    rcases hsend with ⟨hcontrol, hqueue⟩ | ⟨hstage, hcontrol, hqueue⟩
    · exact ⟨hcontrol, .inl hqueue⟩
    · rw [hquiet hstage] at hqueue
      exact ⟨hcontrol, .inr ⟨_, rfl, hqueue⟩⟩

/-- A pause that stands goes on standing. -/
theorem ServesQuietly.asked (h : ServesQuietly c c') (hasked : c.shared.asked) :
    c'.shared.asked := by
  rcases h.sends with ⟨deed, hwork⟩ | ⟨fault, hsupervise⟩ | ⟨-, hcontrol, hqueue | hqueue⟩
  · rwa [(Run.work_reads hwork).asked.1]
  · rwa [(Run.supervise_reads hsupervise).asked.1]
  · rwa [Run.asked, hcontrol, hqueue]
  · obtain ⟨command, hleaves, hqueue⟩ := hqueue
    have heq : c'.shared.asked = command.standing c.shared.asked := by
      rw [Run.asked, hcontrol, hqueue, foldl_append]
      rfl
    rw [heq, show c.shared.asked = true from hasked]
    exact hleaves

/-- The supervisor leaves a worker that polls alone. -/
theorem Run.supervise_worker (h : run.supervise fault = some run')
    (hstage : run.supervisor.stage ≠ .spawn) :
    run'.worker = run.worker ∧ run'.control = run.control ∧ run'.queue = run.queue := by
  unfold Run.supervise at h
  split at h
  · cases h
    exact ⟨rfl, rfl, rfl⟩
  · cases fault <;> cases h <;> exact ⟨rfl, rfl, rfl⟩
  · split at h <;> cases h <;> exact ⟨rfl, rfl, rfl⟩
  · cases h
    exact ⟨rfl, rfl, rfl⟩
  · next hsupervisor => exact absurd (by rw [hsupervisor]) hstage
  · split at h <;> cases h <;> exact ⟨rfl, rfl, rfl⟩
  · cases h
    exact ⟨rfl, rfl, rfl⟩
  · split at h <;> cases h <;> exact ⟨rfl, rfl, rfl⟩
  · cases h
    exact ⟨rfl, rfl, rfl⟩
  · split at h <;> cases h
    exact ⟨rfl, rfl, rfl⟩

/-- A step of the worker leaves a halting poll halting. -/
theorem Run.Halts.work (h : run.Halts) (hstep : run.work deed = some run') : run'.Halts := by
  obtain ⟨outbox, stage, hworker⟩ : ∃ outbox stage, run.worker = ⟨outbox, stage⟩ := ⟨_, _, rfl⟩
  unfold Run.Halts at h
  unfold Run.work at hstep
  rw [hworker] at h hstep
  cases stage with
  | polling stage atBoundary =>
    cases outbox with
    | cons payload rest =>
      cases hstep
      exact h
    | nil =>
      change run.poll atBoundary stage = some run' at hstep
      cases stage with
      | drain =>
        unfold Run.poll at hstep
        dsimp only at hstep
        split at hstep
        · next command rest hqueue =>
          cases hstep
          have hreads : run.Reads (run.receive command rest (.polling .drain atBoundary)) :=
            .read command hqueue rfl
          show (run.receive command rest (.polling .drain atBoundary)).asked
          rw [hreads.asked.1]
          exact h
        · next hqueue =>
          cases hstep
          refine ⟨?_, by show run.queue.all RunCommand.leaves; rw [hqueue]; rfl⟩
          have hasked : run.queue.foldl RunCommand.standing run.control.paused = true := h
          rwa [hqueue] at hasked
      | loop =>
        cases hstep
        unfold Run.Halts
        rw [if_pos h.1]
        exact h
      | toPausing =>
        cases hstep
        exact h
      | toPaused =>
        cases hstep
        exact h
      | recv =>
        obtain ⟨hpaused, hall⟩ := h
        unfold Run.poll at hstep
        dsimp only at hstep
        split at hstep
        · next command rest hqueue =>
          cases hstep
          rw [hqueue, all_cons, Bool.and_eq_true] at hall
          refine ⟨?_, hall.2⟩
          show (run.control.apply command).1.paused
          rw [ChannelControl.apply_paused, hpaused]
          exact hall.1
        · cases hstep
      | wake => exact h.elim
      | toRunning => exact h.elim
      | flow => exact h.elim
  | _ => exact h.elim

/-- A quiet step leaves a halting poll halting. -/
theorem ServesQuietly.halts (h : ServesQuietly c c')
    (hspawn : c.shared.supervisor.stage = .spawn → c.shared.worker.stage = .unstarted)
    (hhalts : c.shared.Halts) : c'.shared.Halts := by
  rcases h.sends with ⟨deed, hwork⟩ | ⟨fault, hsupervise⟩ | ⟨hstage, hcontrol, hqueue⟩
  · exact hhalts.work hwork
  · have hnot : c.shared.supervisor.stage ≠ .spawn := fun hstage => by
      unfold Run.Halts at hhalts
      rw [hspawn hstage] at hhalts
      exact hhalts
    obtain ⟨hworker, hcontrol, hqueue⟩ := Run.supervise_worker hsupervise hnot
    unfold Run.Halts Run.asked at hhalts ⊢
    rwa [hworker, hcontrol, hqueue]
  · have hasked := h.asked
    have hall : c.shared.queue.all RunCommand.leaves → c'.shared.queue.all RunCommand.leaves := by
      rcases hqueue with hqueue | ⟨command, hleaves, hqueue⟩
      · rw [hqueue]
        exact id
      · intro hbefore
        rw [hqueue, all_append, hbefore]
        simpa using hleaves
    unfold Run.Halts at hhalts ⊢
    rw [hstage, hcontrol]
    revert hhalts
    cases c.shared.worker.stage with
    | polling stage atBoundary =>
      cases stage with
      | drain => exact hasked
      | wake => exact id
      | toRunning => exact id
      | flow => exact id
      | _ => exact fun hhalts => ⟨hhalts.1, hall hhalts.2⟩
    | _ => exact id

/-! ### A live run -/

/-- A request that is not half handled. -/
def Handler.Whole (handler : Handler) : Prop := handler.agent.stage = .read ∨ handler.Answered

/-- A pause request that acts on a pause that stands is granted: it is sent, or answered on a run
already on its way to a pause. -/
inductive PauseGranted : Serving → Serving → Prop
  | sent (run run' : Run) (before after : List Handler) (handler : Handler)
    (hpaced : (Handler.mk .pause ⟨[], .send⟩).Paced run)
    (h : (Handler.mk .pause ⟨[], .send⟩).handle run = some (handler, run'))
    (granted : handler.agent.stage = .announce) :
    PauseGranted ⟨run, before ++ ⟨.pause, [], .send⟩ :: after⟩ ⟨run', before ++ handler :: after⟩
  | answered (run run' : Run) (before after : List Handler) (handler : Handler)
    (hpaced : (Handler.mk .pause ⟨[], .read⟩).Paced run)
    (h : (Handler.mk .pause ⟨[], .read⟩).handle run = some (handler, run'))
    (granted : handler.agent.stage = .accept) :
    PauseGranted ⟨run, before ++ ⟨.pause, [], .read⟩ :: after⟩ ⟨run', before ++ handler :: after⟩

/-- Inside the part of a poll it does not leave while it is paused. -/
def PollStage.waits : PollStage → Bool
  | .drain | .loop | .toPausing | .toPaused | .recv => true
  | .wake | .toRunning | .flow => false

/-- The published state of a live run agrees with what the run does. -/
structure Agrees (c : Serving) : Prop where
  /-- When a poll lets the run go on, nothing left to read or to announce, it is not said to be
  paused. -/
  continues : ∀ atBoundary checkpoint,
    c.shared.worker.stage = .polled atBoundary .continue checkpoint → c.shared.queue = [] →
    (∀ handler ∈ c.threads, handler.Whole) →
    c.shared.state.status = .running ∨ c.shared.state.status = .cancelling ∧
      ∃ cancel, c.shared.control.cancel = some cancel ∧ cancel.cancelAt = .boundary ∧
        atBoundary = false
  /-- A pause that is granted and followed by no resume and no cancellation stops the next poll. -/
  pauses : ∀ c₁, PauseGranted c c₁ → ∀ c₂, ReflTransGen ServesQuietly c₁ c₂ →
    ∀ atBoundary, c₂.shared.worker.stage = .polling .drain atBoundary →
    ∀ c₃, ReflTransGen ServesQuietly c₂ c₃ →
      ∃ stage atBoundary, c₃.shared.worker.stage = .polling stage atBoundary ∧ stage.waits
  /-- A pending cancellation is never weakened. -/
  keeps : ∀ c' cancel, Serves c c' → c.shared.control.cancel = some cancel →
    ∃ later, c'.shared.control.cancel = some later ∧ cancel.Keeps later
  /-- It lets every poll go on, and stops the run at the first one its kind allows. -/
  stops : ∀ cancel, c.shared.control.cancel = some cancel →
    (∀ stage atBoundary, c.shared.worker.stage = .polling stage atBoundary →
      (c.shared.work .proceed).isSome) ∧
    ∀ atBoundary flow checkpoint, c.shared.worker.stage = .polled atBoundary flow checkpoint →
      (flow = .stop ↔ cancel.cancelAt = .now ∨ atBoundary) ∧
        (checkpoint ↔ flow = .stop ∧ cancel.checkpoint ∧ atBoundary)

/-- What holds in every state a live run comes to. -/
abbrev Serving.Alive (c : Serving) : Prop :=
  Holds Live (fun (handler : Handler) run => handler.Knows run ∧ handler.KnowsLive run)
    (fun handler : Handler => (handler.due, handler.cancels)) c

theorem Serving.alive_of_run {c : Serving} (h : ReflTransGen ServesPaced .live c) : c.Alive :=
  paced_kept.run ⟨⟨Run.launched_orderly, Run.launched_steady⟩,
    fun _ hl => absurd hl not_mem_nil⟩ h

theorem ServesQuietly.paced (h : ServesQuietly c c') : ServesPaced c c' :=
  h.mono (fun _ _ h => h) (fun _ h => h) fun _ _ _ _ h => h.2

theorem paced_of_quiet (h : ReflTransGen ServesQuietly c c') : ReflTransGen ServesPaced c c' :=
  Relation.ReflTransGen.mono (fun _ _ => ServesQuietly.paced) _ _ h

theorem Serves.commands (h : Serves c c') : c.shared.Commands c'.shared := by
  cases h with
  | own threads h =>
    obtain ⟨choice, h⟩ := h
    exact Run.advance_commands h
  | spawn run threads h => exact .reads (.same rfl rfl)
  | act before after h => exact Handler.handle_commands h

theorem PauseGranted.paced (h : PauseGranted c c') : ServesPaced c c' := by
  cases h with
  | sent run run' before after handler hpaced h granted => exact .act before after ⟨hpaced, h⟩
  | answered run run' before after handler hpaced h granted => exact .act before after ⟨hpaced, h⟩

/-- A granted pause stands. -/
theorem PauseGranted.asked (h : PauseGranted c c') : c'.shared.asked := by
  cases h with
  | sent run run' before after handler hpaced h granted =>
    unfold Handler.handle at h
    dsimp only at h
    split at h
    · cases h
      cases granted
    · next run'' hsent =>
      obtain ⟨-, -, rfl⟩ := Run.send_eq_some hsent
      cases h
      exact Run.asked_send
  | answered run run' before after handler hpaced h granted =>
    cases h
    refine hpaced ?_
    revert granted
    show Request.dispatch .pause run.state.status = .accept → _
    cases run.state.status <;> simp [Request.dispatch]

theorem Handler.Whole.cancels (h : handler.Whole) : handler.cancels = 0 := by
  obtain ⟨request, outbox, stage⟩ := handler
  rcases h with hread | ⟨answer, hanswered⟩
  · obtain rfl : stage = .read := hread
    cases request <;> rfl
  · obtain rfl : stage = .answered answer := hanswered
    cases request <;> rfl

/-- What a poll answers to a pending cancellation. -/
theorem ChannelControl.flow_stop {control : ChannelControl} {cancel : PendingCancel}
    (atBoundary : Bool) (hcancel : control.cancel = some cancel) :
    ((control.flow atBoundary).1 = .stop ↔ cancel.cancelAt = .now ∨ atBoundary) ∧
      ((control.flow atBoundary).2 ↔
        (control.flow atBoundary).1 = .stop ∧ cancel.checkpoint ∧ atBoundary) := by
  obtain ⟨cancelAt, checkpoint⟩ := cancel
  unfold ChannelControl.flow
  rw [hcancel]
  cases cancelAt <;> cases atBoundary <;> cases checkpoint <;> simp

/-- A halting poll waits. -/
theorem Run.Halts.waits (h : run.Halts) :
    ∃ stage atBoundary, run.worker.stage = .polling stage atBoundary ∧ stage.waits := by
  unfold Run.Halts at h
  split at h
  · next stage atBoundary hstage =>
    refine ⟨stage, atBoundary, hstage, ?_⟩
    cases stage <;> first | rfl | exact h.elim
  · exact h.elim

/-- A poll goes on, unless it is blocked on the next command. -/
theorem Run.work_goes {stage : PollStage} (hstage : run.worker.stage = .polling stage atBoundary)
    (hrecv : stage ≠ .recv) : (run.work .proceed).isSome := by
  obtain ⟨outbox, stage', hworker⟩ : ∃ outbox stage, run.worker = ⟨outbox, stage⟩ := ⟨_, _, rfl⟩
  obtain rfl : stage' = .polling stage atBoundary := by rwa [hworker] at hstage
  unfold Run.work
  rw [hworker]
  cases outbox with
  | cons payload rest => rfl
  | nil =>
    cases stage with
    | drain =>
      show (run.poll atBoundary .drain).isSome
      unfold Run.poll
      dsimp only
      split <;> rfl
    | recv => exact absurd rfl hrecv
    | _ => rfl

/-- **A live run says of itself what it does**, in every run in which each request acts on a pause
that stands, however the requests interleave with the polls. -/
theorem paced_live (c : Serving) (h : ReflTransGen ServesPaced .live c) : Agrees c := by
  have halive := Serving.alive_of_run h
  obtain ⟨horderly, hsteady⟩ := halive.1
  have hfollows := hsteady.follows
  unfold Run.Follows at hfollows
  refine ⟨fun atBoundary checkpoint hstage hqueue hwhole => ?_,
    fun c₁ hgranted c₂ hquiet atBoundary hdrain c₃ hpoll => ?_,
    fun c' cancel hserves hcancel => hserves.commands.keeps hcancel,
    fun cancel hcancel => ⟨fun stage atBoundary hstage => ?_,
      fun atBoundary flow checkpoint hstage => ?_⟩⟩
  · rw [hstage] at hfollows
    obtain ⟨hpaused, hflow⟩ := hfollows
    have hadmits := horderly.admits
    rw [hstage] at hadmits
    have hlive := (horderly.working (by rw [hstage]; rfl)).2
    have hannounced : (total (fun handler : Handler => (handler.due, handler.cancels))
        c.threads).2 = 0 := by
      have hmap := total_map (AddMonoidHom.snd ℕ ℕ)
        (fun handler : Handler => (handler.due, handler.cancels)) c.threads
      refine hmap.trans (total_eq_zero fun handler hhandler => ?_)
      exact (hwhole handler hhandler).cancels
    have hnone := Nat.not_lt_of_le hannounced.le
    have hasked : c.shared.asked = false := by
      rw [Run.asked, hqueue]
      exact hpaused
    have hcancelling : c.shared.cancelSent → c.shared.state.status = .cancelling := fun hsent =>
      ((hsteady.sent hsent).resolve_left hnone).resolve_right fun hterminal => by
        rw [RunStatus.not_terminal_of_live hlive] at hterminal
        cases hterminal
    cases hstatus : c.shared.state.status with
    | running => exact .inl rfl
    | cancelling =>
      have hsent := hsteady.cancelling hstatus
      rw [Run.cancelSent, hqueue, List.any_nil, Bool.or_false] at hsent
      obtain ⟨cancel, hcancel⟩ := Option.isSome_iff_exists.mp hsent
      have hstop := ChannelControl.flow_stop atBoundary hcancel
      rw [hflow] at hstop
      refine .inr ⟨rfl, cancel, hcancel, ?_, ?_⟩
      · cases hat : cancel.cancelAt with
        | boundary => rfl
        | now => cases hstop.1.mpr (.inl hat)
      · cases hat : atBoundary with
        | false => rfl
        | true => cases hstop.1.mpr (.inr hat)
    | starting => exact absurd hstatus hadmits.1
    | paused => exact absurd hstatus hadmits.2
    | pausing =>
      rcases hsteady.pausing hstatus with hstands | hsent
      · rw [hasked] at hstands
        cases hstands
      · rw [hcancelling hsent] at hstatus
        cases hstatus
    | _ =>
      rw [hstatus] at hlive
      cases hlive
  · have hrun : ReflTransGen ServesPaced .live c₁ := h.tail hgranted.paced
    have hasked : c₂.shared.asked := by
      clear hpoll hdrain
      induction hquiet with
      | refl => exact hgranted.asked
      | tail _ hstep ih => exact hstep.asked ih
    have hhalts : c₃.shared.Halts := by
      induction hpoll with
      | refl =>
        unfold Run.Halts
        rw [hdrain]
        exact hasked
      | @tail c₃ c₄ hbefore hstep ih =>
        have halive' := Serving.alive_of_run
          ((hrun.trans (paced_of_quiet hquiet)).trans (paced_of_quiet hbefore))
        refine hstep.halts (fun hspawn => ?_) ih
        have hphase := halive'.1.orderly.phase
        unfold Supervised at hphase
        rw [hspawn] at hphase
        exact hphase.2
    exact hhalts.waits
  · have hpaused := hsteady.unpaused (by rw [hcancel]; rfl)
    rw [hstage] at hfollows
    refine Run.work_goes hstage fun hrecv => ?_
    subst hrecv
    rw [hpaused] at hfollows
    cases hfollows.1
  · rw [hstage] at hfollows
    have hstop := ChannelControl.flow_stop atBoundary hcancel
    rwa [hfollows.2] at hstop

/-- A run paused while its model loads. -/
theorem paused_agrees : ∃ c : Serving, Agrees c ∧ c.shared.state.status = .pausing ∧
    c.shared.queue = [.pause] := by
  have hrun := (((((ReflTransGen.refl.tail
    (.spawn Run.launched [] ⟨.pause, rfl⟩ : ServesPaced _ _)).tail
    (.act [] [] ⟨fun h => (h.elim (nomatch ·) (nomatch ·)), rfl⟩)).tail
    (.act [] [] ⟨rfl, rfl⟩)).tail
    (.act [] [] ⟨fun _ => rfl, rfl⟩)).tail
    (.act [] [] ⟨trivial, rfl⟩)).tail
    (.act [] [] ⟨trivial, rfl⟩)
  exact ⟨_, paced_live _ hrun, rfl, rfl⟩

/-- The run is launched and comes into its training loop. -/
def intoLoop : List (Move Choice Handler) :=
  [.own (.supervise none), .own (.supervise none), .own (.work .proceed), .own (.work .proceed),
    .own (.work .proceed), .own (.work .proceed)]

/-- A pause and then a resume, each handled from start to end, and then a poll. -/
def pauseThenResume : List (Move Choice Handler) :=
  intoLoop ++ [.spawn (.new .pause), .act 0, .act 0, .act 0, .act 0, .act 0,
    .spawn (.new .resume), .act 0, .act 0, .act 0, .own (.work (.poll false)),
    .own (.work .proceed), .own (.work .proceed), .own (.work .proceed), .own (.work .proceed),
    .own (.work .proceed), .own (.work .proceed)]

/-- A cancellation and a pause, both read on a running run, and then a poll. -/
def cancelThenPause : List (Move Choice Handler) :=
  intoLoop ++ [.spawn (.new .pause), .spawn (.new (.cancel .boundary false)), .act 0, .act 1,
    .act 0, .act 1, .act 1, .act 1, .act 1, .act 0, .act 0, .act 0,
    .own (.work (.poll true)), .own (.work .proceed), .own (.work .proceed), .own (.work .proceed),
    .own (.work .proceed), .own (.work .proceed), .own (.work .proceed)]

theorem live_of_play {moves : List (Move Choice Handler)} {c : Serving}
    (hmoves : startsNew moves) (h : play Run.advance Handler.handle Serving.live moves = some c) :
    ReflTransGen Serves .live c :=
  run_of_play (fun _ hmem => Handler.new_of_isNew (all_eq_true.mp hmoves _ hmem)) h

/-- **What happens when a request acts on a pause that does not stand**: a run goes on training
under the status `pausing`, with nothing left to read, and a run with a cancellation pending blocks
at a boundary. -/
theorem unpaced_not_paced :
    (¬∀ c, ReflTransGen Serves .live c → ∀ atBoundary checkpoint,
      c.shared.worker.stage = .polled atBoundary .continue checkpoint → c.shared.queue = [] →
      (∀ handler ∈ c.threads, handler.Whole) →
      c.shared.state.status ≠ .pausing ∧ c.shared.state.status ≠ .paused) ∧
    ¬∀ c, ReflTransGen Serves .live c → c.shared.control.cancel.isSome → c.shared.queue = [] →
      c.shared.worker.stage ≠ .polling .recv true := by
  constructor
  · intro hall
    have hplay : (play Run.advance Handler.handle Serving.live pauseThenResume).isSome := rfl
    refine (hall _ (live_of_play rfl (Option.some_get hplay).symm) false false rfl rfl ?_).1 rfl
    intro handler hmem
    obtain rfl | rfl : handler = ⟨.resume, [], .answered (.accepted .pausing)⟩ ∨
        handler = ⟨.pause, [], .answered (.accepted .pausing)⟩ := by
      rcases List.mem_cons.mp hmem with h | h
      · exact .inl h
      · exact .inr (List.mem_singleton.mp h)
    · exact .inr ⟨_, rfl⟩
    · exact .inr ⟨_, rfl⟩
  · intro hall
    have hplay : (play Run.advance Handler.handle Serving.live cancelThenPause).isSome := rfl
    exact hall _ (live_of_play rfl (Option.some_get hplay).symm) rfl rfl rfl

end Retrograd.Server
