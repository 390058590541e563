import Retrograd.Server.Machine

/-!
# How a run ends

A handler reads the status and acts on it in later steps, and the supervisor does not ask whether
its own transitions were granted. A run ends once, with one terminal event that says its final
status, **as long as three of these steps still find the status they were meant for**
(`served_ends_once`): a queued run is cancelled while it is queued, it is launched while nobody has
cancelled it, and the closed device queue fails a run that is not over. Without that, two
cancellations of one queued run end it twice (`cancelled_twice`), and a cancellation between the
supervisor's check and its launch does not stop the run.
-/

namespace Retrograd.Server

open Logic List Option
open Relation (ReflTransGen)

/-- Before the supervisor has launched the run. -/
def RunStatus.isEarly : RunStatus → Bool
  | .queued | .resolving => true
  | _ => false

/-- While the run holds the device. -/
def RunStatus.isLive : RunStatus → Bool
  | .starting | .running | .paused | .pausing | .cancelling => true
  | _ => false

variable {status : RunStatus}

theorem RunStatus.not_terminal_of_early (h : status.isEarly) : status.isTerminal = false := by
  cases status <;> simp_all [isEarly, isTerminal]

theorem RunStatus.not_terminal_of_live (h : status.isLive) : status.isTerminal = false := by
  cases status <;> simp_all [isLive, isTerminal]

/-! ### What any step does to the state -/

/-- The state of a run only changes by a transition or by an error recorded beside it. -/
def RunState.Next (state state' : RunState) : Prop :=
  (∃ status, state' = (state.publish status).1) ∨ ∃ error, state' = { state with error }

theorem RunState.Next.refl (state : RunState) : state.Next state := .inr ⟨state.error, rfl⟩

theorem RunState.Next.lawful {state state' : RunState} (h : state.Next state')
    (hlawful : state.Lawful) : state'.Lawful := by
  obtain ⟨status, rfl⟩ | ⟨error, rfl⟩ := h
  · exact hlawful.publish status
  · exact ⟨hlawful.chain, hlawful.last⟩

/-- A terminal status never changes. -/
theorem RunState.Next.terminal {state state' : RunState} (h : state.Next state')
    (hterminal : state.status.isTerminal) : state'.status = state.status := by
  obtain ⟨status, rfl⟩ | ⟨error, rfl⟩ := h
  · rw [RunState.publish_terminal hterminal]
  · rfl

variable {run run' : Run} {handler handler' : Handler}

private theorem Run.supervise_next {fault : Option String} (h : run.supervise fault = some run') :
    run.state.Next run'.state := by
  unfold Run.supervise at h
  split at h
  · cases h
    exact .refl _
  · cases fault <;> cases h
    · exact .refl _
    · exact .inr ⟨_, rfl⟩
  · split at h <;> cases h <;> exact .refl _
  · cases h
    exact .inl ⟨.starting, rfl⟩
  · cases fault <;> cases h
    · exact .refl _
    · exact .inr ⟨_, rfl⟩
  · split at h
    · cases h
      exact .refl _
    · cases h
      exact .inr ⟨_, rfl⟩
    · cases h
      exact .inr ⟨_, rfl⟩
    · cases h
  · cases h
    exact .inl ⟨_, rfl⟩
  · split at h
    · next state hmoved =>
      cases h
      refine .inl ⟨.failed, ?_⟩
      unfold RunState.publish
      rw [hmoved]
    · cases h
      exact .refl _
    · cases h
      exact .refl _
  · cases h
    exact .refl _
  · split at h <;> cases h
    exact .refl _

private theorem Run.poll_next {atBoundary : Bool} {stage : PollStage}
    (h : run.poll atBoundary stage = some run') : run.state.Next run'.state := by
  unfold Run.poll at h
  split at h
  · split at h <;> cases h <;> exact .refl _
  · cases h
    exact .refl _
  · cases h
    exact .inl ⟨.pausing, rfl⟩
  · cases h
    exact .inl ⟨.paused, rfl⟩
  · split at h <;> cases h
    exact .refl _
  · cases h
    exact .refl _
  · cases h
    exact .inl ⟨.running, rfl⟩
  · cases h
    exact .refl _

private theorem Run.work_next {deed : Deed} (h : run.work deed = some run') :
    run.state.Next run'.state := by
  unfold Run.work at h
  split at h
  · cases h
    exact .refl _
  · cases h
  · cases h
  · cases deed with
    | report payload =>
      dsimp only at h
      split at h <;> cases h
      exact .refl _
    | _ =>
      cases h
      try exact .refl _
  · cases h
    exact .inl ⟨.running, rfl⟩
  · cases deed with
    | report payload =>
      dsimp only at h
      split at h <;> cases h
      exact .refl _
    | _ =>
      cases h
      try exact .refl _
  · exact Run.poll_next h
  · cases h
    exact .refl _

theorem Run.send_eq_some {command : RunCommand} (h : run.send command = some run') :
    run.listening ∧ run.queue.length < queueDepth ∧
      run' = { run with queue := run.queue ++ [command] } := by
  unfold Run.send at h
  split at h
  · next hroom =>
    rw [Bool.and_eq_true, decide_eq_true_eq] at hroom
    cases h
    exact ⟨hroom.1, hroom.2, rfl⟩
  · cases h

theorem Run.advance_next {choice : Choice} (h : run.advance choice = some run') :
    run.state.Next run'.state := by
  cases choice with
  | supervise fault => exact Run.supervise_next h
  | work deed => exact Run.work_next h
  | ask log =>
    obtain ⟨-, -, rfl⟩ := Run.send_eq_some h
    exact .refl _
  | askCheckpoint =>
    obtain ⟨-, -, rfl⟩ := Run.send_eq_some h
    exact .refl _

theorem Handler.handle_next (h : handler.handle run = some (handler', run')) :
    run.state.Next run'.state := by
  unfold Handler.handle at h
  dsimp only at h
  split at h
  · cases h
    exact .refl _
  · cases h
    exact .refl _
  · split at h
    · cases h
      exact .refl _
    · next run'' hsent =>
      obtain ⟨-, -, rfl⟩ := Run.send_eq_some hsent
      cases h
      exact .refl _
  · split at h
    · cases h
    · cases h
      exact .inl ⟨_, rfl⟩
  · cases h
    exact .inl ⟨.cancelled, rfl⟩
  · cases h
    exact .refl _
  · cases h

/-- A handler never touches the worker. -/
theorem Handler.handle_worker (h : handler.handle run = some (handler', run')) :
    run'.worker.stage = run.worker.stage := by
  unfold Handler.handle at h
  dsimp only at h
  split at h
  · cases h
    rfl
  · cases h
    rfl
  · split at h
    · cases h
      rfl
    · next run'' hsent =>
      obtain ⟨-, -, rfl⟩ := Run.send_eq_some hsent
      cases h
      rfl
  · split at h
    · cases h
    · cases h
      rfl
  · cases h
    rfl
  · cases h
    rfl
  · cases h

/-! ### The steps that must not be overtaken -/

/-- A step of the supervisor finds the status it was meant for. -/
def Timely (choice : Choice) (run : Run) : Prop :=
  match choice, run.supervisor with
  | .supervise _, ⟨[], .launch⟩ => run.state.status.isEarly
  | .supervise (some _), ⟨[], .permit⟩ => run.state.status.isTerminal = false
  | _, _ => True

/-- A step of a handler finds the status it was meant for: a queued run is cancelled on the spot
only while it is queued. -/
def Handler.Timely (handler : Handler) (run : Run) : Prop :=
  match handler.agent with
  | ⟨[], .cancelQueued⟩ => run.state.status.isEarly ∧ run.state.error = none
  | _ => True

/-- A step of the server that overtakes nothing. -/
abbrev ServesTimely : Serving → Serving → Prop :=
  Interleaved (fun run run' => ∃ choice, Timely choice run ∧ run.advance choice = some run')
    (fun handler => ∃ request, handler = .new request)
    fun handler run handler' run' =>
      handler.Timely run ∧ handler.handle run = some (handler', run')

/-! ### The invariant -/

/-- How many ends of the run these events report. -/
def terminals (events : List RunEventPayload) : ℕ := events.countP (·.isTerminal)

@[simp] theorem terminals_nil : terminals [] = 0 := rfl

@[simp] theorem terminals_append (events events' : List RunEventPayload) :
    terminals (events ++ events') = terminals events + terminals events' := by
  simp [terminals]

theorem terminals_cons (payload : RunEventPayload) (events : List RunEventPayload) :
    terminals (payload :: events) = terminals [payload] + terminals events := by
  rw [← singleton_append, terminals_append]

/-- The ends a handler has still to report. -/
def Handler.due (handler : Handler) : ℕ := terminals handler.agent.outbox

/-- Where a pause may be published: between the two transitions into it and the one out of it. -/
def PollStage.holdsPause : PollStage → Bool
  | .drain | .flow => false
  | _ => true

/-- What the status may be while the worker is somewhere. -/
def WorkerStage.Admits (stage : WorkerStage) (status : RunStatus) : Prop :=
  match stage with
  | .unstarted | .loading | .announcing | .returned (.error _) | .returned (.panicked _) =>
    status ≠ .paused
  | .polling poll _ => status ≠ .starting ∧ (status = .paused → poll.holdsPause)
  | .looping | .polled _ _ _ | .returned (.ok _ _) => status ≠ .starting ∧ status ≠ .paused

/-- The worker has not begun, or has ended. -/
def WorkerStage.isIdle : WorkerStage → Bool
  | .unstarted | .returned _ => true
  | _ => false

/-- What the supervisor knows of the run where it is. -/
def Supervised (run : Run) : Prop :=
  match run.supervisor.stage with
  | .permit | .check | .launch =>
    (run.state.status.isEarly ∨ run.state.status = .cancelled) ∧ run.worker.stage = .unstarted
  | .spawn => run.state.status.isLive ∧ run.worker.stage = .unstarted
  | .join => run.state.status.isLive
  | .ending cancelled =>
    run.state.status.isLive ∧ ∃ early, run.worker.stage = .returned (.ok early cancelled)
  | .failing message =>
    run.state.status.isTerminal = false ∧ run.state.error = some message ∧ run.worker.stage.isIdle
  | .refused _ => False
  | .done => run.state.status.isTerminal ∧ run.worker.stage.isIdle

/-- The invariant of a run, of whose ends the handlers have `m` still to report. -/
structure Orderly (run : Run) (m : ℕ) : Prop where
  lawful : run.state.Lawful
  /-- A run that is over has one end, reported or about to be. -/
  ends : terminals run.events + terminals run.supervisor.outbox + m =
    if run.state.status.isTerminal then 1 else 0
  reports : ∀ payload ∈ run.events ++ run.supervisor.outbox, payload.isTerminal →
    payload = .terminal run.state.status run.state.error
  quiet : terminals run.worker.outbox = 0
  idle : run.worker.stage.isIdle → run.worker.outbox = []
  admits : run.worker.stage.Admits run.state.status
  errs : run.state.error.isSome → run.state.status = .failed ∨
    ∃ message, run.supervisor.stage = .failing message
  phase : Supervised run

/-- What a handler knows: the end it has still to report is the run's, and so is the final status
it has answered. -/
structure Handler.Knows (handler : Handler) (run : Run) : Prop where
  pending : ∀ payload ∈ handler.agent.outbox, payload.isTerminal →
    payload = .terminal .cancelled none ∧ run.state.status = .cancelled
  answered : ∀ status, handler.agent.stage = .answered (.accepted status) → status.isTerminal →
    run.state.status = status

variable {m : ℕ}

theorem terminals_eq_zero {events : List RunEventPayload} :
    terminals events = 0 ↔ ∀ payload ∈ events, payload.isTerminal = false := by
  simp [terminals, countP_eq_zero]

theorem Run.new_orderly : Orderly .new 0 where
  lawful := RunState.new_lawful
  ends := rfl
  reports := by simp [Run.new]
  quiet := rfl
  idle := fun _ => rfl
  admits := by simp [Run.new, WorkerStage.Admits, RunState.new]
  errs := by simp [Run.new, RunState.new]
  phase := ⟨.inl rfl, rfl⟩

/-- Before the run is over, no end is reported. -/
theorem Orderly.unreported (h : Orderly run m) (hlive : run.state.status.isTerminal = false) :
    (∀ payload ∈ run.events ++ run.supervisor.outbox, payload.isTerminal = false) ∧ m = 0 := by
  have hends := h.ends
  rw [hlive, ← terminals_append] at hends
  simp only [Bool.false_eq_true, if_false] at hends
  exact ⟨terminals_eq_zero.mp (by omega), by omega⟩

/-! ### The supervisor -/

variable {payload : RunEventPayload}

/-- The supervisor emits the next event of its outbox. -/
theorem Orderly.supervisor_emits (h : Orderly run m) {rest : List RunEventPayload}
    {stage : SupervisorStage} (hsupervisor : run.supervisor = ⟨payload :: rest, stage⟩) :
    Orderly { run with events := run.events ++ [payload], supervisor := ⟨rest, stage⟩ } m where
  lawful := h.lawful
  ends := by
    have hends := h.ends
    rw [hsupervisor, terminals_cons] at hends
    rw [terminals_append]
    dsimp only at hends ⊢
    omega
  reports := by
    have hreports := h.reports
    rw [hsupervisor] at hreports
    simpa using hreports
  quiet := h.quiet
  idle := h.idle
  admits := h.admits
  errs := by
    have herrs := h.errs
    rwa [hsupervisor] at herrs
  phase := by
    have hphase := h.phase
    unfold Supervised at hphase ⊢
    rwa [hsupervisor] at hphase

/-- A step that neither ends the run nor reports its end. -/
theorem Orderly.moves (h : Orderly run m) (hevents : run'.events = run.events)
    (hstate : run'.state = run.state ∨
      run.state.status.isTerminal = false ∧ run'.state.status.isTerminal = false)
    (hlawful : run'.state.Lawful)
    (hout : run'.supervisor.outbox = run.supervisor.outbox ∨
      terminals run.supervisor.outbox = 0 ∧ terminals run'.supervisor.outbox = 0)
    (hquiet : terminals run'.worker.outbox = 0)
    (hidle : run'.worker.stage.isIdle → run'.worker.outbox = [])
    (hadmits : run'.worker.stage.Admits run'.state.status)
    (herrs : run'.state.error.isSome → run'.state.status = .failed ∨
      ∃ message, run'.supervisor.stage = .failing message)
    (hphase : Supervised run') : Orderly run' m where
  lawful := hlawful
  ends := by
    have houtbox : terminals run'.supervisor.outbox = terminals run.supervisor.outbox := by
      rcases hout with heq | ⟨hzero, hzero'⟩
      · rw [heq]
      · rw [hzero, hzero']
    rw [hevents, houtbox, h.ends]
    rcases hstate with heq | ⟨hlive, hlive'⟩
    · rw [heq]
    · rw [hlive, hlive']
  reports := by
    intro payload hpayload hterminal
    have hold : payload ∈ run.events ++ run.supervisor.outbox := by
      rw [hevents] at hpayload
      rcases hout with heq | ⟨-, hzero'⟩
      · rwa [heq] at hpayload
      · rcases mem_append.mp hpayload with hmem | hmem
        · exact mem_append_left _ hmem
        · rw [terminals_eq_zero.mp hzero' payload hmem] at hterminal
          cases hterminal
    rcases hstate with heq | ⟨hlive, -⟩
    · rw [heq]
      exact h.reports payload hold hterminal
    · rw [(h.unreported hlive).1 payload hold] at hterminal
      cases hterminal
  quiet := hquiet
  idle := hidle
  admits := hadmits
  errs := herrs
  phase := hphase

/-- The supervisor records an error, on a run that is not over and whose worker is idle. -/
theorem Orderly.fails (h : Orderly run m) (hlive : run.state.status.isTerminal = false)
    (hworker : run.worker.stage.isIdle) (message : String) : Orderly (run.fail message) m := by
  obtain ⟨hnone, rfl⟩ := h.unreported hlive
  have hevents : ∀ payload ∈ run.events, payload.isTerminal = false := fun payload hpayload =>
    hnone payload (mem_append_left _ hpayload)
  exact {
    lawful := ⟨h.lawful.chain, h.lawful.last⟩
    ends := by simp [Run.fail, terminals_eq_zero.mpr hevents, hlive]
    reports := fun payload hpayload hterminal => by
      have hmem : payload ∈ run.events := by simpa [Run.fail] using hpayload
      rw [hevents payload hmem] at hterminal
      cases hterminal
    quiet := h.quiet
    idle := h.idle
    admits := h.admits
    errs := fun _ => .inr ⟨message, rfl⟩
    phase := ⟨hlive, rfl, hworker⟩ }

theorem transitionAllowed_starting (h : status.isEarly) : transitionAllowed status .starting := by
  cases status <;> first | rfl | cases h

theorem transitionAllowed_failed (h : status.isTerminal = false) :
    transitionAllowed status .failed := by
  cases status <;> first | rfl | cases h

theorem transitionAllowed_cancelled (h : status.isTerminal = false) :
    transitionAllowed status .cancelled := by
  cases status <;> first | rfl | cases h

theorem transitionAllowed_completed (h : status.isLive) (hstarting : status ≠ .starting)
    (hpaused : status ≠ .paused) : transitionAllowed status .completed := by
  cases status <;> first | rfl | exact (hstarting rfl).elim | exact (hpaused rfl).elim | cases h

theorem WorkerStage.admits_of_ne (stage : WorkerStage) (hstarting : status ≠ .starting)
    (hpaused : status ≠ .paused) : stage.Admits status := by
  unfold WorkerStage.Admits
  split
  · exact hpaused
  · exact hpaused
  · exact hpaused
  · exact hpaused
  · exact hpaused
  · exact ⟨hstarting, fun heq => absurd heq hpaused⟩
  · exact ⟨hstarting, hpaused⟩
  · exact ⟨hstarting, hpaused⟩
  · exact ⟨hstarting, hpaused⟩

/-- The supervisor moves the run to its final status, and has its end to report. -/
theorem Orderly.over (h : Orderly run m) {state : RunState}
    (hlive : run.state.status.isTerminal = false) (hterminal : status.isTerminal)
    (hallowed : transitionAllowed run.state.status status)
    (herror : run.state.error.isSome → status = .failed) (hworker : run.worker.stage.isIdle)
    (hstate : state = { run.state with status, transitions := run.state.transitions ++ [status] }) :
    Orderly { run with
      state, supervisor := ⟨[.status status, .terminal status run.state.error], .done⟩ } m := by
  obtain ⟨hnone, rfl⟩ := h.unreported hlive
  have hevents : ∀ payload ∈ run.events, payload.isTerminal = false := fun payload hpayload =>
    hnone payload (mem_append_left _ hpayload)
  have hother : run.state.status ≠ status := by
    rintro hsame
    rw [hsame, hterminal] at hlive
    cases hlive
  subst hstate
  exact {
    lawful := by
      have hlawful := h.lawful.publish status
      rwa [RunState.publish_granted hallowed hother] at hlawful
    ends := by
      rw [terminals_eq_zero.mpr hevents]
      simp [hterminal, terminals, RunEventPayload.isTerminal]
    reports := by
      intro payload hpayload hend
      simp only [mem_append, mem_cons, not_mem_nil, or_false] at hpayload
      rcases hpayload with hpayload | rfl | rfl
      · rw [hevents payload hpayload] at hend
        cases hend
      · cases hend
      · rfl
    quiet := h.quiet
    idle := h.idle
    admits := WorkerStage.admits_of_ne _ (by rintro rfl; cases hterminal)
      (by rintro rfl; cases hterminal)
    errs := fun hsome => .inl (herror hsome)
    phase := ⟨hterminal, hworker⟩ }

/-- While the run is live its error, if it has one, is about to fail it. -/
theorem Orderly.no_error (h : Orderly run m) (hlive : run.state.status.isTerminal = false)
    (hstage : ∀ message, run.supervisor.stage ≠ .failing message) : run.state.error = none := by
  rw [← not_isSome_iff_eq_none]
  intro hsome
  rcases h.errs hsome with hfailed | ⟨message, hfailing⟩
  · rw [hfailed] at hlive
    cases hlive
  · exact hstage message hfailing

/-- **Every timely step of the supervisor keeps the invariant.** -/
theorem Orderly.supervise (h : Orderly run m) {fault : Option String}
    (htimely : Timely (.supervise fault) run) (hstep : run.supervise fault = some run') :
    Orderly run' m := by
  have hphase := h.phase
  unfold Supervised at hphase
  obtain ⟨outbox, stage, hsupervisor⟩ : ∃ outbox stage, run.supervisor = ⟨outbox, stage⟩ :=
    ⟨_, _, rfl⟩
  unfold Run.supervise at hstep
  unfold Timely at htimely
  rw [hsupervisor] at hstep hphase htimely
  cases outbox with
  | cons payload rest =>
    cases hstep
    exact h.supervisor_emits hsupervisor
  | nil =>
    have hempty : terminals run.supervisor.outbox = 0 := by rw [hsupervisor]; rfl
    have hnone : run.state.status.isTerminal = false → (∀ message, stage ≠ .failing message) →
        ¬run.state.error.isSome := fun hlive hstage => by
      rw [h.no_error hlive (by rwa [hsupervisor])]
      exact Bool.false_ne_true
    cases stage with
    | permit =>
      cases fault with
      | none =>
        cases hstep
        exact h.moves rfl (.inl rfl) h.lawful (.inr ⟨hempty, rfl⟩) h.quiet h.idle h.admits
          (fun hsome => (h.errs hsome).imp_right fun ⟨_, hfailing⟩ => by simp [hsupervisor] at hfailing)
          hphase
      | some error =>
        cases hstep
        exact h.fails htimely (by rw [hphase.2]; rfl) _
    | check =>
      have herrs : run.state.error.isSome → run.state.status = .failed := fun hsome =>
        (h.errs hsome).resolve_right fun ⟨_, hfailing⟩ => by simp [hsupervisor] at hfailing
      dsimp only at hstep
      split at hstep
      · next hterminal =>
        cases hstep
        refine h.moves rfl (.inl rfl) h.lawful (.inr ⟨hempty, rfl⟩) h.quiet h.idle h.admits
          (fun hsome => .inl (herrs hsome)) ⟨hterminal, ?_⟩
        rw [hphase.2]
        rfl
      · cases hstep
        exact h.moves rfl (.inl rfl) h.lawful (.inr ⟨hempty, rfl⟩) h.quiet h.idle h.admits
          (fun hsome => .inl (herrs hsome)) hphase
    | launch =>
      have hlive := RunStatus.not_terminal_of_early htimely
      have hmoved : run.state.publish .starting = ({ run.state with
          status := .starting, transitions := run.state.transitions ++ [.starting] },
          [.status .starting]) := by
        refine RunState.publish_granted (transitionAllowed_starting htimely) ?_
        rintro hsame
        rw [hsame] at htimely
        cases htimely
      have hlawful := h.lawful.publish .starting
      rw [hmoved] at hstep hlawful
      cases hstep
      refine h.moves rfl (.inr ⟨hlive, rfl⟩) hlawful (.inr ⟨hempty, rfl⟩) h.quiet h.idle ?_
        (fun hsome => absurd hsome (hnone hlive (by simp))) ⟨rfl, hphase.2⟩
      rw [hphase.2]
      simp [WorkerStage.Admits]
    | spawn =>
      have hlive := RunStatus.not_terminal_of_live hphase.1
      cases fault with
      | none =>
        cases hstep
        refine h.moves rfl (.inl rfl) h.lawful (.inr ⟨hempty, rfl⟩) rfl (fun _ => rfl) ?_
          (fun hsome => absurd hsome (hnone hlive (by simp))) hphase.1
        have hadmits := h.admits
        rwa [hphase.2] at hadmits
      | some error =>
        cases hstep
        have hfails := h.fails hlive (by rw [hphase.2]; rfl)
          ("could not start the run's thread: " ++ error)
        exact hfails.moves rfl (.inl rfl) hfails.lawful (.inl rfl) hfails.quiet hfails.idle
          hfails.admits hfails.errs hfails.phase
    | join =>
      have hlive := RunStatus.not_terminal_of_live hphase
      dsimp only at hstep
      split at hstep
      · next earlyStopped cancelled hworker =>
        cases hstep
        refine h.moves rfl (.inl rfl) h.lawful (.inr ⟨hempty, ?_⟩) h.quiet h.idle h.admits
          (fun hsome => absurd hsome (hnone hlive (by simp)))
          ⟨hphase, earlyStopped, by rw [hworker]⟩
        cases earlyStopped <;> rfl
      · next message hworker =>
        cases hstep
        exact h.fails hlive (by rw [hworker]; rfl) message
      · next text hworker =>
        cases hstep
        exact h.fails hlive (by rw [hworker]; rfl) _
      · cases hstep
    | ending cancelled =>
      obtain ⟨hstatus, early, hworker⟩ := hphase
      have hlive := RunStatus.not_terminal_of_live hstatus
      have hadmits := h.admits
      rw [hworker] at hadmits
      have herror : run.state.error = none := by
        rw [← not_isSome_iff_eq_none]
        exact hnone hlive (by simp)
      obtain ⟨status, hdef⟩ : ∃ status : RunStatus,
        (if cancelled then .cancelled else .completed) = status := ⟨_, rfl⟩
      have hterminal : status.isTerminal := by
        subst hdef
        cases cancelled <;> rfl
      have hallowed : transitionAllowed run.state.status status := by
        subst hdef
        cases cancelled with
        | true => exact transitionAllowed_cancelled hlive
        | false => exact transitionAllowed_completed hstatus hadmits.1 hadmits.2
      have hmoved : run.state.publish status = ({ run.state with
          status, transitions := run.state.transitions ++ [status] }, [.status status]) := by
        refine RunState.publish_granted hallowed ?_
        rintro hsame
        rw [hsame, hterminal] at hlive
        cases hlive
      dsimp only at hstep
      rw [hdef, hmoved] at hstep
      cases hstep
      have hover := h.over hlive hterminal hallowed (fun hsome => absurd hsome
        (hnone hlive (by simp))) (by rw [hworker]; rfl) rfl
      rwa [herror] at hover
    | failing message =>
      obtain ⟨hlive, herror, hworker⟩ := hphase
      dsimp only at hstep
      have hmoved : run.state.transition .failed = .moved { run.state with
          status := .failed, transitions := run.state.transitions ++ [.failed] } := by
        unfold RunState.transition
        rw [if_pos (transitionAllowed_failed hlive), if_neg]
        rintro hfailed
        rw [hfailed] at hlive
        cases hlive
      rw [hmoved] at hstep
      cases hstep
      have hover := h.over hlive rfl (transitionAllowed_failed hlive) (fun _ => rfl) hworker rfl
      rwa [herror] at hover
    | refused message => exact hphase.elim
    | done =>
      dsimp only at hstep
      split at hstep
      · cases hstep
        exact h.moves rfl (.inl rfl) h.lawful (.inr ⟨hempty, rfl⟩) h.quiet h.idle h.admits
          (fun hsome => .inl ((h.errs hsome).resolve_right fun ⟨_, hfailing⟩ => by
            simp [hsupervisor] at hfailing)) hphase
      · cases hstep

/-! ### The worker -/

/-- While the worker is at work, the supervisor waits for it and the run is live. -/
theorem Orderly.working (h : Orderly run m) (hbusy : run.worker.stage.isIdle = false) :
    run.supervisor.stage = .join ∧ run.state.status.isLive := by
  have hphase := h.phase
  unfold Supervised at hphase
  have hunstarted : run.worker.stage ≠ .unstarted := by
    rintro hworker
    rw [hworker] at hbusy
    cases hbusy
  have hidle : ¬run.worker.stage.isIdle := by simp [hbusy]
  split at hphase
  · exact absurd hphase.2 hunstarted
  · exact absurd hphase.2 hunstarted
  · exact absurd hphase.2 hunstarted
  · exact absurd hphase.2 hunstarted
  · next hjoin => exact ⟨hjoin, hphase⟩
  · obtain ⟨-, early, hworker⟩ := hphase
    rw [hworker] at hbusy
    cases hbusy
  · exact absurd hphase.2.2 hidle
  · exact hphase.elim
  · exact absurd hphase.2 hidle

/-- A step of the worker that may move the run, but not end it. -/
theorem Orderly.worker_moves (h : Orderly run m) (hbusy : run.worker.stage.isIdle = false)
    (hevents : run'.events = run.events) (hsupervisor : run'.supervisor = run.supervisor)
    (hlive : run'.state.status.isLive) (hlawful : run'.state.Lawful)
    (herror : run'.state.error = run.state.error)
    (hquiet : terminals run'.worker.outbox = 0)
    (hidle : run'.worker.stage.isIdle → run'.worker.outbox = [])
    (hadmits : run'.worker.stage.Admits run'.state.status) : Orderly run' m := by
  obtain ⟨hjoin, hlive'⟩ := h.working hbusy
  have hno := h.no_error (RunStatus.not_terminal_of_live hlive') (by rw [hjoin]; simp)
  refine h.moves hevents (.inr ⟨RunStatus.not_terminal_of_live hlive',
    RunStatus.not_terminal_of_live hlive⟩) hlawful (.inl (by rw [hsupervisor])) hquiet hidle
    hadmits (fun hsome => by simp [herror, hno] at hsome) ?_
  unfold Supervised
  rw [hsupervisor, hjoin]
  exact hlive

theorem RunStatus.live_of_publish {state : RunState} (hlive : state.status.isLive)
    (htarget : status.isLive) : (state.publish status).1.status.isLive := by
  rcases state.publish_cases status with ⟨heq, -⟩ | ⟨-, -, heq⟩
  · rwa [heq]
  · rwa [heq]

theorem terminals_publish (state : RunState) (status : RunStatus) :
    terminals (state.publish status).2 = 0 := by
  rcases state.publish_cases status with ⟨heq, -⟩ | ⟨-, -, heq⟩ <;> rw [heq] <;> rfl

theorem terminals_apply (control : ChannelControl) (command : RunCommand) :
    terminals (control.apply command).2 = 0 := by
  cases command with
  | trainer log => cases log <;> rfl
  | _ => rfl

variable {stage : WorkerStage}

/-- The worker asks for a transition within a live run. -/
theorem Orderly.work_transition (h : Orderly run m) (hbusy : run.worker.stage.isIdle = false)
    (htarget : status.isLive) {also : List RunEventPayload} (halso : terminals also = 0)
    (hstage : stage.isIdle = false) (hadmits : stage.Admits (run.state.publish status).1.status) :
    Orderly (run.workTransition status also stage) m := by
  refine h.worker_moves hbusy rfl rfl (RunStatus.live_of_publish (h.working hbusy).2 htarget)
    (h.lawful.publish status) (run.state.publish_error status) ?_ (fun hidle => ?_) hadmits
  · show terminals ((run.state.publish status).2 ++ also) = 0
    rw [terminals_append, terminals_publish, halso]
  · rw [show (run.workTransition status also stage).worker.stage = stage from rfl, hstage] at hidle
    cases hidle

/-- The worker goes to a stage, with a report at most. -/
theorem Orderly.worker_goes (h : Orderly run m) (hbusy : run.worker.stage.isIdle = false)
    {outbox : List RunEventPayload} {control : ChannelControl} {queue : List RunCommand}
    {listening : Bool} (hquiet : terminals outbox = 0) (hidle : stage.isIdle → outbox = [])
    (hadmits : stage.Admits run.state.status) :
    Orderly { run with control, queue, listening, worker := ⟨outbox, stage⟩ } m :=
  h.worker_moves hbusy rfl rfl (h.working hbusy).2 h.lawful rfl hquiet hidle hadmits

/-- After a transition into a live status, the run is there unless it could not go. -/
theorem RunState.publish_status (state : RunState) (status : RunStatus) :
    (state.publish status).1.status = status ∨
      (state.publish status).1.status = state.status ∧
        transitionAllowed state.status status = false := by
  rcases state.publish_cases status with ⟨heq, hsame | hrefused⟩ | ⟨-, -, heq⟩
  · exact .inl (by rw [heq, hsame])
  · exact .inr ⟨by rw [heq], hrefused⟩
  · exact .inl (by rw [heq])

/-- Every step inside a poll keeps the invariant. -/
theorem Orderly.poll (h : Orderly run m) {stage : PollStage} {atBoundary : Bool}
    (hworker : run.worker = ⟨[], .polling stage atBoundary⟩)
    (hstep : run.poll atBoundary stage = some run') : Orderly run' m := by
  have hbusy : run.worker.stage.isIdle = false := by rw [hworker]; rfl
  have hadmits := h.admits
  rw [hworker] at hadmits
  obtain ⟨hstarting, hpaused⟩ := hadmits
  have hnot : ∀ status : RunStatus, (run.state.publish status).1.status = .starting →
      status = .starting := fun status heq => by
    rcases run.state.publish_status status with hmoved | ⟨hkept, -⟩
    · rw [← hmoved, heq]
    · rw [hkept] at heq
      exact absurd heq hstarting
  cases stage with
  | drain =>
    unfold Run.poll at hstep
    dsimp only at hstep
    split at hstep
    · cases hstep
      exact h.worker_goes hbusy (terminals_apply _ _) (fun hidle => nomatch hidle)
        ⟨hstarting, hpaused⟩
    · cases hstep
      exact h.worker_goes hbusy rfl (fun _ => rfl) ⟨hstarting, fun _ => rfl⟩
  | loop =>
    cases hstep
    refine h.worker_goes hbusy rfl (fun _ => rfl) ⟨hstarting, fun _ => ?_⟩
    cases run.control.paused <;> rfl
  | toPausing =>
    cases hstep
    exact h.work_transition hbusy rfl rfl rfl ⟨fun heq => (nomatch hnot _ heq), fun _ => rfl⟩
  | toPaused =>
    cases hstep
    exact h.work_transition hbusy rfl rfl rfl ⟨fun heq => (nomatch hnot _ heq), fun _ => rfl⟩
  | recv =>
    unfold Run.poll at hstep
    dsimp only at hstep
    split at hstep
    · cases hstep
      exact h.worker_goes hbusy (terminals_apply _ _) (fun hidle => nomatch hidle)
        ⟨hstarting, fun _ => rfl⟩
    · cases hstep
  | wake =>
    cases hstep
    refine h.worker_goes hbusy rfl (fun _ => rfl) ⟨hstarting, fun hstatus => ?_⟩
    rw [if_pos hstatus]
    rfl
  | toRunning =>
    cases hstep
    refine h.work_transition hbusy rfl rfl rfl ⟨fun heq => (nomatch hnot _ heq), fun heq => ?_⟩
    rcases run.state.publish_status .running with hmoved | ⟨hkept, hrefused⟩
    · rw [hmoved] at heq
      cases heq
    · rw [hkept] at heq
      rw [heq] at hrefused
      cases hrefused
  | flow =>
    cases hstep
    exact h.worker_goes hbusy rfl (fun _ => rfl)
      ⟨hstarting, fun hstatus => nomatch hpaused hstatus⟩

/-- The thread ends without a result. -/
theorem Orderly.finishes (h : Orderly run m) (hbusy : run.worker.stage.isIdle = false)
    {outcome : Outcome} (hadmits : (WorkerStage.returned outcome).Admits run.state.status) :
    Orderly (run.finish outcome) m :=
  h.worker_goes hbusy rfl (fun _ => rfl) hadmits

/-- What the engine reports is no end. -/
theorem terminals_report (h : payload.isReport) : terminals [payload] = 0 := by
  cases payload <;> first | rfl | cases h

/-- The worker emits the next event of its outbox. -/
theorem Orderly.worker_emits (h : Orderly run m) {rest : List RunEventPayload}
    (hworker : run.worker = ⟨payload :: rest, stage⟩) :
    Orderly { run with events := run.events ++ [payload], worker := ⟨rest, stage⟩ } m := by
  have hquiet := h.quiet
  rw [hworker, terminals_cons] at hquiet
  obtain ⟨hpayload, hrest⟩ := Nat.add_eq_zero_iff.mp hquiet
  have hidle := h.idle
  have hadmits := h.admits
  have hphase := h.phase
  unfold Supervised at hphase
  rw [hworker] at hidle hadmits hphase
  have hbusy : ¬stage.isIdle := fun h => cons_ne_nil _ _ (hidle h)
  exact {
    lawful := h.lawful
    ends := by
      have hends := h.ends
      rw [terminals_append, hpayload]
      exact hends
    reports := by
      intro payload' hmem hterminal
      rw [append_assoc, mem_append, mem_append, mem_singleton] at hmem
      rcases hmem with hmem | rfl | hmem
      · exact h.reports payload' (mem_append_left _ hmem) hterminal
      · rw [terminals_eq_zero.mp hpayload payload' mem_cons_self] at hterminal
        cases hterminal
      · exact h.reports payload' (mem_append_right _ hmem) hterminal
    quiet := hrest
    idle := fun h => absurd h hbusy
    admits := hadmits
    errs := h.errs
    phase := hphase }

/-- **Every step of the worker keeps the invariant.** -/
theorem Orderly.work (h : Orderly run m) {deed : Deed} (hstep : run.work deed = some run') :
    Orderly run' m := by
  obtain ⟨outbox, stage, hworker⟩ : ∃ outbox stage, run.worker = ⟨outbox, stage⟩ := ⟨_, _, rfl⟩
  have hadmits := h.admits
  unfold Run.work at hstep
  rw [hworker] at hstep hadmits
  cases outbox with
  | cons payload rest =>
    cases hstep
    exact h.worker_emits hworker
  | nil =>
    cases stage with
    | unstarted => cases hstep
    | loading =>
      have hbusy : run.worker.stage.isIdle = false := by rw [hworker]; rfl
      cases deed with
      | proceed =>
        cases hstep
        exact h.worker_goes hbusy rfl (fun _ => rfl) hadmits
      | report payload =>
        dsimp only at hstep
        split at hstep
        · next hreport =>
          cases hstep
          exact h.worker_goes hbusy (terminals_report hreport) (fun hidle => nomatch hidle) hadmits
        · cases hstep
      | fail message =>
        cases hstep
        exact h.finishes hbusy hadmits
      | panic text =>
        cases hstep
        exact h.finishes hbusy hadmits
      | poll atBoundary => cases hstep
      | finish earlyStopped => cases hstep
    | announcing =>
      have hbusy : run.worker.stage.isIdle = false := by rw [hworker]; rfl
      cases hstep
      refine h.work_transition hbusy rfl rfl rfl ?_
      rcases run.state.publish_status .running with hmoved | ⟨hkept, hrefused⟩
      · rw [hmoved]
        exact ⟨fun heq => (nomatch heq), fun heq => nomatch heq⟩
      · rw [hkept]
        refine ⟨fun heq => ?_, hadmits⟩
        rw [heq] at hrefused
        cases hrefused
    | looping =>
      have hbusy : run.worker.stage.isIdle = false := by rw [hworker]; rfl
      cases deed with
      | proceed => cases hstep
      | report payload =>
        dsimp only at hstep
        split at hstep
        · next hreport =>
          cases hstep
          exact h.worker_goes hbusy (terminals_report hreport) (fun hidle => nomatch hidle) hadmits
        · cases hstep
      | fail message =>
        cases hstep
        exact h.finishes hbusy hadmits.2
      | panic text =>
        cases hstep
        exact h.finishes hbusy hadmits.2
      | poll atBoundary =>
        cases hstep
        exact h.worker_goes hbusy rfl (fun _ => rfl)
          ⟨hadmits.1, fun hstatus => absurd hstatus hadmits.2⟩
      | finish earlyStopped =>
        cases hstep
        exact h.finishes hbusy hadmits
    | polling poll atBoundary => exact h.poll hworker hstep
    | polled atBoundary flow checkpoint =>
      have hbusy : run.worker.stage.isIdle = false := by rw [hworker]; rfl
      cases hstep
      exact h.worker_goes hbusy rfl (fun _ => rfl) hadmits
    | returned outcome => cases hstep

/-! ### The requests -/

/-- A handler that moves the run within its live states, or leaves it. -/
theorem Orderly.announced (h : Orderly run m) (htarget : status = .pausing ∨ status = .cancelling) :
    Orderly { run with state := (run.state.publish status).1 } m := by
  have hlawful := h.lawful.publish status
  rcases run.state.publish_cases status with ⟨heq, -⟩ | ⟨hallowed, -, heq⟩
  · rw [heq]
    exact h.moves rfl (.inl rfl) h.lawful (.inl rfl) h.quiet h.idle h.admits h.errs h.phase
  · rw [heq] at hlawful ⊢
    have hlive : run.state.status.isLive := by
      rcases htarget with rfl | rfl <;> revert hallowed <;> cases run.state.status <;>
        simp [transitionAllowed, RunStatus.isLive]
    have hlive' : status.isLive := by rcases htarget with rfl | rfl <;> rfl
    have hadmits : run.worker.stage.Admits status :=
      WorkerStage.admits_of_ne _ (by rcases htarget with rfl | rfl <;> simp)
        (by rcases htarget with rfl | rfl <;> simp)
    have herrs : run.state.error.isSome → ∃ message, run.supervisor.stage = .failing message :=
      fun hsome => (h.errs hsome).resolve_left fun hfailed => by simp [hfailed, RunStatus.isLive] at hlive
    refine h.moves rfl (.inr ⟨RunStatus.not_terminal_of_live hlive,
      RunStatus.not_terminal_of_live hlive'⟩) hlawful (.inl rfl) h.quiet h.idle hadmits
      (fun hsome => .inr (herrs hsome)) ?_
    have hphase := h.phase
    have hearly : ¬(run.state.status.isEarly ∨ run.state.status = .cancelled) := by
      revert hlive
      cases run.state.status <;> simp [RunStatus.isLive, RunStatus.isEarly]
    unfold Supervised at hphase ⊢
    dsimp only
    generalize run.supervisor.stage = stage at hphase ⊢
    cases stage with
    | permit => exact absurd hphase.1 hearly
    | check => exact absurd hphase.1 hearly
    | launch => exact absurd hphase.1 hearly
    | spawn => exact ⟨hlive', hphase.2⟩
    | join => exact hlive'
    | ending cancelled => exact ⟨hlive', hphase.2⟩
    | failing message => exact ⟨RunStatus.not_terminal_of_live hlive', hphase.2⟩
    | refused message => exact hphase
    | done => simp [RunStatus.not_terminal_of_live hlive] at hphase

/-- A queued run is cancelled on the spot: the handler has its end to report. -/
theorem Orderly.cancelled (h : Orderly run m) (hearly : run.state.status.isEarly)
    (herror : run.state.error = none) :
    Orderly { run with state := (run.state.publish .cancelled).1 } (1 + m) := by
  have hlive := RunStatus.not_terminal_of_early hearly
  obtain ⟨hnone, rfl⟩ := h.unreported hlive
  have hlawful := h.lawful.publish .cancelled
  rw [RunState.publish_granted (transitionAllowed_cancelled hlive)
    (by rintro heq; rw [heq] at hearly; cases hearly)] at hlawful ⊢
  have hphase := h.phase
  have hnotLive : run.state.status.isLive = false := by
    revert hearly
    cases run.state.status <;> simp [RunStatus.isLive, RunStatus.isEarly]
  exact {
    lawful := hlawful
    ends := by
      rw [← terminals_append, terminals_eq_zero.mpr hnone]
      rfl
    reports := fun payload hpayload hterminal => by
      rw [hnone payload hpayload] at hterminal
      cases hterminal
    quiet := h.quiet
    idle := h.idle
    admits := WorkerStage.admits_of_ne _ (by simp) (by simp)
    errs := fun hsome => by simp [herror] at hsome
    phase := by
      unfold Supervised at hphase ⊢
      dsimp only
      generalize run.supervisor.stage = stage at hphase ⊢
      cases stage with
      | permit => exact ⟨.inr rfl, hphase.2⟩
      | check => exact ⟨.inr rfl, hphase.2⟩
      | launch => exact ⟨.inr rfl, hphase.2⟩
      | spawn => simp [hnotLive] at hphase
      | join => simp [hnotLive] at hphase
      | ending cancelled => simp [hnotLive] at hphase
      | failing message => simp [herror] at hphase
      | refused message => exact hphase
      | done => simp [hlive] at hphase }

/-- A handler emits the next event of its outbox. -/
theorem Orderly.handler_emits {due : ℕ} (h : Orderly run (terminals [payload] + due))
    (hknows : payload.isTerminal → payload = .terminal .cancelled none ∧ run.state.status = .cancelled) :
    Orderly { run with events := run.events ++ [payload] } due where
  lawful := h.lawful
  ends := by
    have hends := h.ends
    rw [terminals_append]
    dsimp only at hends ⊢
    omega
  reports := by
    intro payload' hmem hterminal
    rw [append_assoc, mem_append, mem_append, mem_singleton] at hmem
    rcases hmem with hmem | rfl | hmem
    · exact h.reports payload' (mem_append_left _ hmem) hterminal
    · obtain ⟨heq, hstatus⟩ := hknows hterminal
      rw [heq, hstatus]
      have herror : run.state.error = none := by
        rw [← not_isSome_iff_eq_none]
        intro hsome
        rcases h.errs hsome with hfailed | ⟨message, hfailing⟩
        · rw [hstatus] at hfailed
          cases hfailed
        · have hphase := h.phase
          unfold Supervised at hphase
          rw [hfailing, hstatus] at hphase
          cases hphase.1
      rw [herror]
    · exact h.reports payload' (mem_append_right _ hmem) hterminal
  quiet := h.quiet
  idle := h.idle
  admits := h.admits
  errs := h.errs
  phase := h.phase

theorem Request.dispatch_unaccepted (request : Request) (status status' : RunStatus) :
    request.dispatch status ≠ .answered (.accepted status') := by
  unfold Request.dispatch
  repeat' split
  all_goals simp

/-- A status that is final stays what a handler knows it to be. -/
theorem Handler.Knows.next (hknows : handler.Knows run) (h : run.state.Next run'.state) :
    handler.Knows run' where
  pending := fun payload hmem hterminal => by
    obtain ⟨heq, hstatus⟩ := hknows.pending payload hmem hterminal
    exact ⟨heq, (h.terminal (by rw [hstatus]; rfl)).trans hstatus⟩
  answered := fun status heq hterminal => by
    have hstatus := hknows.answered status heq hterminal
    exact (h.terminal (by rwa [hstatus])).trans hstatus

/-- **Every timely step of a handler keeps the invariant**, and what the handler knows. -/
theorem Orderly.handle (h : Orderly run (handler.due + m)) (hknows : handler.Knows run)
    (htimely : handler.Timely run) (hstep : handler.handle run = some (handler', run')) :
    Orderly run' (handler'.due + m) ∧ handler'.Knows run' := by
  obtain ⟨request, outbox, stage⟩ := handler
  have hsilent : ∀ stage, (∀ status, stage ≠ .answered (.accepted status)) →
      (Handler.mk request ⟨[], stage⟩).Knows run' := fun stage hstage =>
    ⟨fun _ hmem => (nomatch hmem), fun status heq => absurd heq (hstage status)⟩
  cases outbox with
  | cons payload rest =>
    cases hstep
    have hdue : (Handler.mk request ⟨payload :: rest, stage⟩).due + m =
        terminals [payload] + ((Handler.mk request ⟨rest, stage⟩).due + m) := by
      rw [← Nat.add_assoc]
      exact congrArg (· + m) (terminals_cons payload rest)
    rw [hdue] at h
    exact ⟨h.handler_emits (hknows.pending payload mem_cons_self), fun payload' hmem =>
      hknows.pending payload' (mem_cons_of_mem _ hmem), hknows.answered⟩
  | nil =>
    have hzero : ∀ stage, (Handler.mk request ⟨[], stage⟩).due = 0 := fun _ => rfl
    cases stage with
    | read =>
      cases hstep
      exact ⟨h, hsilent _ (Request.dispatch_unaccepted request _)⟩
    | send =>
      unfold Handler.handle at hstep
      dsimp only at hstep
      split at hstep
      · cases hstep
        exact ⟨h, hsilent _ (by simp)⟩
      · next run'' hsent =>
        obtain ⟨-, -, rfl⟩ := Run.send_eq_some hsent
        cases hstep
        refine ⟨h.moves rfl (.inl rfl) h.lawful (.inl rfl) h.quiet h.idle h.admits h.errs h.phase,
          hsilent _ fun status => ?_⟩
        cases request <;> simp [Request.announces]
    | announce =>
      unfold Handler.handle at hstep
      dsimp only at hstep
      split at hstep
      · cases hstep
      · next status hannounces =>
        cases hstep
        have htarget : status = .pausing ∨ status = .cancelling := by
          cases request <;> cases hannounces
          · exact .inl rfl
          · exact .inr rfl
        have hquiet := terminals_publish run.state status
        refine ⟨?_, fun payload hmem hterminal => ?_, fun status heq => nomatch heq⟩
        · unfold Handler.due
          rw [hquiet]
          exact h.announced htarget
        · rw [terminals_eq_zero.mp hquiet payload hmem] at hterminal
          cases hterminal
    | cancelQueued =>
      obtain ⟨hearly, herror⟩ := htimely
      have hlive := RunStatus.not_terminal_of_early hearly
      have hgranted := RunState.publish_granted (transitionAllowed_cancelled hlive)
        (by rintro heq; rw [heq] at hearly; cases hearly)
      have hcancelled := h.cancelled hearly herror
      unfold Handler.handle at hstep
      dsimp only at hstep
      rw [hgranted] at hstep hcancelled
      cases hstep
      refine ⟨?_, fun payload hmem hterminal => ?_, fun status heq => nomatch heq⟩
      · rw [hzero, Nat.zero_add] at hcancelled
        exact hcancelled
      · simp only [cons_append, nil_append, mem_cons, not_mem_nil,
          or_false] at hmem
        rcases hmem with rfl | rfl
        · cases hterminal
        · exact ⟨rfl, rfl⟩
    | accept =>
      cases hstep
      refine ⟨h, fun _ hmem => (nomatch hmem), fun status heq _ => ?_⟩
      cases heq
      rfl
    | answered answer => cases hstep

/-- **What every timely step of the server keeps.** -/
theorem served_kept : Kept
    (fun run run' => ∃ choice, Timely choice run ∧ run.advance choice = some run')
    (fun handler => ∃ request, handler = .new request)
    (fun handler run handler' run' =>
      handler.Timely run ∧ handler.handle run = some (handler', run'))
    Orderly Handler.Knows Handler.due where
  ownInv := by
    rintro run run' m h ⟨choice, htimely, hstep⟩
    cases choice with
    | supervise fault => exact h.supervise htimely hstep
    | work deed => exact h.work hstep
    | ask log =>
      obtain ⟨-, -, rfl⟩ := Run.send_eq_some hstep
      exact h.moves rfl (.inl rfl) h.lawful (.inl rfl) h.quiet h.idle h.admits h.errs h.phase
    | askCheckpoint =>
      obtain ⟨-, -, rfl⟩ := Run.send_eq_some hstep
      exact h.moves rfl (.inl rfl) h.lawful (.inl rfl) h.quiet h.idle h.admits h.errs h.phase
  ownKnows := by
    rintro run run' handler m h ⟨choice, -, hstep⟩ hknows
    exact hknows.next (Run.advance_next hstep)
  freshInv := by
    rintro run _ m h ⟨request, rfl⟩
    refine ⟨?_, fun payload hmem => (nomatch hmem), fun status heq => nomatch heq⟩
    rwa [show (Handler.new request).due = 0 from rfl, Nat.zero_add]
  stepInv := fun handler run handler' run' m h hknows ⟨htimely, hstep⟩ =>
    h.handle hknows htimely hstep
  stepKnows := by
    rintro handler run handler' run' other m h - hknows ⟨-, hstep⟩
    exact hknows.next (Handler.handle_next hstep)

/-! ### Every run -/

/-- A handler that has answered. -/
def Handler.Answered (handler : Handler) : Prop := ∃ answer, handler.agent.stage = .answered answer

/-- A run that ends once, and not at all after its cancellation, in a state some steps lead to. -/
structure EndsOnce (serves : Serving → Serving → Prop) (c : Serving) : Prop where
  /-- The status only moves along allowed transitions. -/
  lawful : c.shared.state.Lawful
  final : c.shared.state.status.isTerminal → ∀ c', ReflTransGen serves c c' →
    c'.shared.state.status = c.shared.state.status
  once : terminals c.shared.events ≤ 1
  agrees : ∀ status error, .terminal status error ∈ c.shared.events →
    c.shared.state.status = status ∧ status.isTerminal ∧ c.shared.state.error = error
  failed : c.shared.state.error.isSome → c.shared.state.status = .failed ∨
    ∃ message, c.shared.supervisor.stage = .failing message
  /-- When nobody has anything left to do, the run is over and its end is published. -/
  ended : c.shared.supervisor.stage = .done → c.shared.supervisor.outbox = [] →
    (∀ handler ∈ c.threads, handler.Answered ∧ handler.agent.outbox = []) →
    terminals c.shared.events = 1
  /-- Once a request has been answered `cancelled`, the engine is not started any more. -/
  unstarted : (∃ handler ∈ c.threads, handler.agent.stage = .answered (.accepted .cancelled)) →
    ∀ c' c'', ReflTransGen serves c c' → serves c' c'' →
      c'.shared.worker.stage = .unstarted → c''.shared.worker.stage = .unstarted

/-- The start of every run: queued, and nothing asked of it. -/
def Serving.start : Serving := ⟨.new, []⟩

/-- What holds in every state a timely run comes to. -/
abbrev Serving.Sound (c : Serving) : Prop := Holds Orderly Handler.Knows Handler.due c

theorem Serving.sound_of_run {c : Serving} (h : ReflTransGen ServesTimely .start c) : c.Sound :=
  served_kept.run ⟨Run.new_orderly, fun _ hl => absurd hl not_mem_nil⟩ h

variable {c c' : Serving}

theorem Serves.next (h : Serves c c') : c.shared.state.Next c'.shared.state := by
  cases h with
  | own threads h =>
    obtain ⟨choice, h⟩ := h
    exact Run.advance_next h
  | spawn run threads h => exact .refl _
  | act before after h => exact Handler.handle_next h

theorem ServesTimely.serves (h : ServesTimely c c') : Serves c c' :=
  h.mono (fun _ _ ⟨choice, _, h⟩ => ⟨choice, h⟩) (fun _ h => h) fun _ _ _ _ h => h.2

theorem serves_of_timely (h : ReflTransGen ServesTimely c c') :
    ReflTransGen Serves c c' := Relation.ReflTransGen.mono (fun _ _ => ServesTimely.serves) _ _ h

/-- The way of a run is lawful and its end is final, whatever overtakes what. -/
theorem served_lawful (h : ReflTransGen Serves c c') :
    (c.shared.state.Lawful → c'.shared.state.Lawful) ∧
      (c.shared.state.status.isTerminal →
        c'.shared.state.status = c.shared.state.status) := by
  induction h with
  | refl => exact ⟨id, fun _ => rfl⟩
  | tail _ hstep ih =>
    refine ⟨fun hlawful => hstep.next.lawful (ih.1 hlawful), fun hterminal => ?_⟩
    have heq := ih.2 hterminal
    exact (hstep.next.terminal (by rwa [heq])).trans heq

/-- A run that is over before its engine has started does not start it. -/
theorem Serving.Sound.unstarted (h : c.Sound) (hstep : ServesTimely c c')
    (hover : c.shared.state.status.isTerminal) (hworker : c.shared.worker.stage = .unstarted) :
    c'.shared.worker.stage = .unstarted := by
  have hphase := h.1.phase
  cases hstep with
  | @own run run' threads howned =>
    obtain ⟨choice, -, hchoice⟩ := howned
    dsimp only at hphase hover hworker ⊢
    cases choice with
    | supervise fault =>
      change run.supervise fault = some run' at hchoice
      unfold Run.supervise at hchoice
      unfold Supervised at hphase
      split at hchoice
      · cases hchoice
        exact hworker
      · cases fault <;> cases hchoice <;> exact hworker
      · split at hchoice <;> cases hchoice <;> exact hworker
      · cases hchoice
        exact hworker
      · -- the engine is started on a live run only
        next hsupervisor =>
        rw [hsupervisor] at hphase
        simp [RunStatus.not_terminal_of_live hphase.1] at hover
      · split at hchoice <;> cases hchoice <;> exact hworker
      · cases hchoice
        exact hworker
      · split at hchoice <;> cases hchoice <;> exact hworker
      · cases hchoice
        exact hworker
      · split at hchoice <;> cases hchoice
        exact hworker
    | work deed =>
      have hidle := h.1.idle (by rw [hworker]; rfl)
      dsimp only at hidle
      have hagent : run.worker = ⟨[], .unstarted⟩ := by
        rw [← hidle, ← hworker]
      change run.work deed = some run' at hchoice
      unfold Run.work at hchoice
      rw [hagent] at hchoice
      cases hchoice
    | ask log =>
      obtain ⟨-, -, rfl⟩ := Run.send_eq_some hchoice
      exact hworker
    | askCheckpoint =>
      obtain ⟨-, -, rfl⟩ := Run.send_eq_some hchoice
      exact hworker
  | spawn run threads _ => exact hworker
  | act before after hacts => exact (Handler.handle_worker hacts.2).trans hworker

/-- **A run ends once.** In every run whose steps find the status they were meant for, whatever
the requests and however they interleave with the supervisor and the run's thread. -/
theorem served_ends_once (c : Serving) (h : ReflTransGen ServesTimely .start c) :
    EndsOnce ServesTimely c := by
  have hsound := Serving.sound_of_run h
  have hinv := hsound.1
  have hends := hinv.ends
  refine {
    lawful := hinv.lawful
    final := fun hterminal c' hrun =>
      (served_lawful (serves_of_timely hrun)).2 hterminal
    once := by
      split at hends <;> omega
    agrees := fun status error hmem => ?_
    failed := hinv.errs
    ended := fun hdone hempty hanswered => ?_
    unstarted := fun ⟨handler, hmem, hstage⟩ => ?_ }
  · have hreport := hinv.reports _ (List.mem_append_left _ hmem) rfl
    injection hreport with hstatus herror
    refine ⟨hstatus.symm, ?_, herror.symm⟩
    by_contra hlive
    rw [hstatus] at hlive
    have hnone := (hinv.unreported (by simpa using hlive)).1 _ (List.mem_append_left _ hmem)
    cases hnone
  · have hphase := hinv.phase
    unfold Supervised at hphase
    rw [hdone] at hphase
    have hdue : total Handler.due c.threads = 0 :=
      total_eq_zero fun handler hhandler => by
        unfold Handler.due
        rw [(hanswered handler hhandler).2]
        rfl
    rw [hempty, hdue, if_pos hphase.1] at hends
    exact hends
  · have hcancelled := (hsound.2 handler hmem).answered _ hstage rfl
    intro c' c'' hrun hstep hworker
    have hsound' := Serving.sound_of_run (h.trans hrun)
    have hstatus := (served_lawful (serves_of_timely hrun)).2
      (by rw [hcancelled]; rfl)
    exact hsound'.unstarted hstep (by rw [hstatus, hcancelled]; rfl) hworker

/-- A run cancelled while it was queued ends once: its supervisor finds it over. -/
theorem cancelled_queued_ends_once : ∃ c : Serving, EndsOnce ServesTimely c ∧
    c.shared.state.status = .cancelled ∧ terminals c.shared.events = 1 ∧
      c.shared.worker.stage = .unstarted := by
  have hrun := (((((((ReflTransGen.refl.tail
    (.spawn Run.new [] ⟨.cancel .now false, rfl⟩ : ServesTimely _ _)).tail
    (.act [] [] ⟨trivial, rfl⟩)).tail
    (.act [] [] ⟨⟨rfl, rfl⟩, rfl⟩)).tail
    (.act [] [] ⟨trivial, rfl⟩)).tail
    (.act [] [] ⟨trivial, rfl⟩)).tail
    (.act [] [] ⟨trivial, rfl⟩)).tail
    (.own _ ⟨.supervise none, trivial, rfl⟩)).tail
    (.own _ ⟨.supervise none, trivial, rfl⟩)
  exact ⟨_, served_ends_once _ hrun, rfl, rfl, rfl⟩

/-- Two cancellations of one queued run, each read before the other acts. -/
def twoCancels : List (Move Choice Handler) :=
  [.spawn (.new (.cancel .now false)), .spawn (.new (.cancel .now false)), .act 0, .act 1,
    .act 0, .act 0, .act 0, .act 1, .act 1]

/-- A cancellation between the supervisor's check and its launch, and a launched engine. -/
def lateCancel : List (Move Choice Handler) :=
  [.spawn (.new (.cancel .now false)), .act 0, .own (.supervise none), .own (.supervise none),
    .act 0, .act 0, .act 0, .act 0, .own (.supervise none)]

def Handler.isNew (handler : Handler) : Bool :=
  match handler.agent with
  | ⟨[], .read⟩ => true
  | _ => false

/-- A schedule that starts new requests only. -/
def startsNew (moves : List (Move Choice Handler)) : Bool :=
  moves.all fun move => match move with
    | .spawn handler => handler.isNew
    | _ => true

theorem Handler.new_of_isNew {handler : Handler} (h : handler.isNew) :
    ∃ request, handler = .new request := by
  obtain ⟨request, outbox, stage⟩ := handler
  refine ⟨request, ?_⟩
  cases outbox <;> cases stage <;> first | rfl | cases h

theorem serves_of_play {moves : List (Move Choice Handler)} {c : Serving}
    (hmoves : startsNew moves) (h : play Run.advance Handler.handle Serving.start moves = some c) :
    ReflTransGen Serves .start c :=
  run_of_play (fun _ hmem => Handler.new_of_isNew (List.all_eq_true.mp hmoves _ hmem)) h

/-- **What happens when a step is overtaken**: two cancellations of a queued run end it twice, and
a run is started after its cancellation was answered. -/
theorem overtaken_not_ends_once :
    (¬∀ c, ReflTransGen Serves .start c → terminals c.shared.events ≤ 1) ∧
    ¬∀ c, ReflTransGen Serves .start c →
      (∃ handler ∈ c.threads, handler.agent.stage = .answered (.accepted .cancelled)) →
      ∀ c', Serves c c' → c.shared.worker.stage = .unstarted →
        c'.shared.worker.stage = .unstarted := by
  constructor
  · intro hall
    have hplay : (play Run.advance Handler.handle Serving.start twoCancels).isSome := rfl
    exact Nat.not_succ_le_self 1 (hall _ (serves_of_play rfl (Option.some_get hplay).symm))
  · intro hall
    have hplay : (play Run.advance Handler.handle Serving.start lateCancel).isSome := rfl
    have hstarted := hall _ (serves_of_play rfl (Option.some_get hplay).symm)
      ⟨_, List.mem_cons_self, rfl⟩ _ (.own _ ⟨.supervise none, rfl⟩) rfl
    cases hstarted

end Retrograd.Server
