import Retrograd.Logic.Interleave
import Retrograd.Server.Status

/-!
# A run of the server

One run, and everything that acts on it: its **supervisor**, which waits for the device, starts
the run's thread and publishes how it ended; its **worker**, the thread the engine trains on and
polls its commands from; and any number of **requests** to pause, resume or cancel it. Each goes
through the atomic steps of its code, in program order, and any of them may go next. An event that
is still to be emitted stands in the outbox of whoever emits it: publishing is a step after the
transition it reports.
-/

namespace Retrograd.Server

open Logic

/-! ### Commands -/

/-- When a cancellation takes effect: at the next resumable point, or at the next callback. -/
inductive CancelAt
  | boundary
  | now
  deriving DecidableEq, Repr

/-- What is asked of a run. The commands that only talk to its trainer (adjusting its schedules,
an evaluation, a generation, lending the trainer) leave at most a line in its log. -/
inductive RunCommand
  | pause
  | resume
  | cancel (cancelAt : CancelAt) (checkpoint : Bool)
  | checkpoint
  | trainer (log : Option String)
  deriving DecidableEq, Repr

/-- How many unread commands a run may hold. -/
def queueDepth : ℕ := 64

structure PendingCancel where
  cancelAt : CancelAt
  checkpoint : Bool
  deriving DecidableEq, Repr

/-- What the run's own thread keeps of the commands it has read. -/
structure ChannelControl where
  paused : Bool
  cancel : Option PendingCancel
  deriving DecidableEq, Repr

def ChannelControl.new : ChannelControl := ⟨false, none⟩

/-- Whether the run stopped because it was cancelled. -/
def ChannelControl.wasCancelled (control : ChannelControl) : Bool := control.cancel.isSome

/-- A command is applied, with what it leaves to log. -/
def ChannelControl.apply (control : ChannelControl) :
    RunCommand → ChannelControl × List RunEventPayload
  | .pause => ({ control with paused := true }, [])
  | .resume => ({ control with paused := false }, [])
  | .cancel cancelAt checkpoint =>
    -- a cancellation is never downgraded, and it releases a pause
    let previous := control.cancel.getD ⟨cancelAt, checkpoint⟩
    ({ paused := false
       cancel := some {
         cancelAt := if cancelAt = .now ∨ previous.cancelAt = .now then .now else .boundary
         checkpoint := checkpoint || previous.checkpoint } }, [])
  | .checkpoint => (control, [.log "checkpoint requested; it lands at the next boundary"])
  | .trainer log => (control, log.toList.map .log)

inductive Flow
  | continue
  | stop
  deriving DecidableEq, Repr

/-- What a poll answers, and whether it asks for a checkpoint. -/
def ChannelControl.flow (control : ChannelControl) (atBoundary : Bool) : Flow × Bool :=
  match control.cancel with
  | none => (.continue, false)
  | some cancel =>
    if cancel.cancelAt = .boundary && !atBoundary then (.continue, false)
    else (.stop, cancel.checkpoint && atBoundary)

/-! ### The run -/

/-- Where the code of an agent is, and the events it has still to emit before it goes on. -/
structure Agent (Stage : Type) where
  outbox : List RunEventPayload
  stage : Stage

/-- The outcome of the run's thread. -/
inductive Outcome
  | ok (earlyStopped cancelled : Bool)
  | error (message : String)
  | panicked (text : String)

/-- The supervising task. -/
inductive SupervisorStage
  /-- Waiting for the device. -/
  | permit
  | check
  | launch
  | spawn
  | join
  /-- Reporting a run that returned, to be told from one that was cancelled. -/
  | ending (cancelled : Bool)
  /-- The error is recorded and the run not yet failed. -/
  | failing (message : String)
  /-- The run could not be moved to `failed`. -/
  | refused (message : String)
  | done

/-- Inside a poll. -/
inductive PollStage
  /-- Reading the queue until it is empty. -/
  | drain
  /-- The test of the pause loop. -/
  | loop
  | toPausing
  | toPaused
  /-- Blocked on the next command. -/
  | recv
  | wake
  | toRunning
  | flow
  deriving DecidableEq, Repr

/-- The run's thread. -/
inductive WorkerStage
  | unstarted
  | loading
  /-- The training loop starts. -/
  | announcing
  | looping
  | polling (stage : PollStage) (atBoundary : Bool)
  /-- What the last poll answered, and whether it asked for a checkpoint. -/
  | polled (atBoundary : Bool) (flow : Flow) (checkpoint : Bool)
  | returned (outcome : Outcome)

structure Run where
  state : RunState
  /-- The events emitted so far. -/
  events : List RunEventPayload
  /-- The commands sent and not yet read. -/
  queue : List RunCommand
  /-- Whether the receiving half of the command channel is still there. -/
  listening : Bool
  control : ChannelControl
  supervisor : Agent SupervisorStage
  worker : Agent WorkerStage

/-- A run just queued. -/
def Run.new : Run :=
  ⟨.new, [], [], true, .new, ⟨[], .permit⟩, ⟨[], .unstarted⟩⟩

/-- The first section of a failure: the message goes into the state before the transition. -/
def Run.fail (run : Run) (message : String) : Run :=
  { run with
    state := { run.state with error := some message }
    supervisor := ⟨[], .failing message⟩ }

/-- A step of the supervisor. `fault` is the error of a step that may fail. -/
def Run.supervise (run : Run) (fault : Option String) : Option Run :=
  match run.supervisor with
  | ⟨payload :: rest, stage⟩ =>
    some { run with events := run.events ++ [payload], supervisor := ⟨rest, stage⟩ }
  | ⟨[], .permit⟩ => match fault with
    | none => some { run with supervisor := ⟨[], .check⟩ }
    | some _ => some (run.fail "the device queue was closed before the run started")
  | ⟨[], .check⟩ =>
    -- cancelled while queued
    if run.state.status.isTerminal then some { run with supervisor := ⟨[], .done⟩ }
    else some { run with supervisor := ⟨[], .launch⟩ }
  | ⟨[], .launch⟩ =>
    -- whether the transition was granted is not asked
    let (state, outbox) := run.state.publish .starting
    some { run with state, supervisor := ⟨outbox, .spawn⟩ }
  | ⟨[], .spawn⟩ => match fault with
    | none => some { run with worker := ⟨[], .loading⟩, supervisor := ⟨[], .join⟩ }
    | some error =>
      some ({ run with listening := false }.fail ("could not start the run's thread: " ++ error))
  | ⟨[], .join⟩ => match run.worker with
    | ⟨[], .returned (.ok earlyStopped cancelled)⟩ =>
      let early := if earlyStopped then [.log "early stopping: patience exhausted"] else []
      some { run with supervisor := ⟨early ++ [.progress], .ending cancelled⟩ }
    | ⟨[], .returned (.error message)⟩ => some (run.fail message)
    | ⟨[], .returned (.panicked text)⟩ => some (run.fail ("the run's thread panicked: " ++ text))
    | _ => none
  | ⟨[], .ending cancelled⟩ =>
    let status := if cancelled then .cancelled else .completed
    let (state, outbox) := run.state.publish status
    some { run with state, supervisor := ⟨outbox ++ [.terminal status none], .done⟩ }
  | ⟨[], .failing message⟩ => match run.state.transition .failed with
    | .moved state =>
      some { run with
        state, supervisor := ⟨[.status .failed, .terminal .failed (some message)], .done⟩ }
    | .already => some { run with supervisor := ⟨[.terminal .failed (some message)], .done⟩ }
    | .refused => some { run with supervisor := ⟨[], .refused message⟩ }
  | ⟨[], .refused message⟩ =>
    some { run with supervisor := ⟨[.terminal run.state.status (some message)], .done⟩ }
  | ⟨[], .done⟩ =>
    -- the receiving half goes with the task, when no thread took it
    if run.listening then some { run with listening := false } else none

/-- What the engine does next, where its code leaves a choice. -/
inductive Deed
  | proceed
  | report (payload : RunEventPayload)
  | poll (atBoundary : Bool)
  | finish (earlyStopped : Bool)
  | fail (message : String)
  | panic (text : String)

/-- The worker goes on to a stage. -/
def Run.goto (run : Run) (stage : WorkerStage) : Run := { run with worker := ⟨[], stage⟩ }

/-- The worker asks for a transition and goes on, granted or not. -/
def Run.workTransition (run : Run) (status : RunStatus) (also : List RunEventPayload)
    (stage : WorkerStage) : Run :=
  let (state, outbox) := run.state.publish status
  { run with state, worker := ⟨outbox ++ also, stage⟩ }

/-- The worker reads the next command. -/
def Run.receive (run : Run) (command : RunCommand) (rest : List RunCommand)
    (stage : WorkerStage) : Run :=
  let (control, outbox) := run.control.apply command
  { run with control, queue := rest, worker := ⟨outbox, stage⟩ }

/-- A step inside a poll. -/
def Run.poll (run : Run) (atBoundary : Bool) : PollStage → Option Run
  | .drain => match run.queue with
    | command :: rest => some (run.receive command rest (.polling .drain atBoundary))
    | [] => some (run.goto (.polling .loop atBoundary))
  | .loop =>
    some (run.goto (.polling (if run.control.paused then .toPausing else .wake) atBoundary))
  | .toPausing => some (run.workTransition .pausing [] (.polling .toPaused atBoundary))
  | .toPaused => some (run.workTransition .paused [] (.polling .recv atBoundary))
  | .recv => match run.queue with
    | command :: rest => some (run.receive command rest (.polling .loop atBoundary))
    -- the handle itself holds a sender, so the channel never closes here
    | [] => none
  | .wake =>
    some (run.goto
      (.polling (if run.state.status = .paused then .toRunning else .flow) atBoundary))
  | .toRunning => some (run.workTransition .running [] (.polling .flow atBoundary))
  | .flow =>
    let (flow, checkpoint) := run.control.flow atBoundary
    some (run.goto (.polled atBoundary flow checkpoint))

/-- The run's thread ends, and the receiving half of its commands with it. -/
def Run.finish (run : Run) (outcome : Outcome) : Run :=
  { run with listening := false, worker := ⟨[], .returned outcome⟩ }

/-- A step of the worker. -/
def Run.work (run : Run) (deed : Deed) : Option Run :=
  match run.worker with
  | ⟨payload :: rest, stage⟩ =>
    some { run with events := run.events ++ [payload], worker := ⟨rest, stage⟩ }
  | ⟨[], .unstarted⟩ | ⟨[], .returned _⟩ => none
  | ⟨[], .loading⟩ => match deed with
    | .proceed => some (run.goto .announcing)
    | .report payload =>
      if payload.isReport then some { run with worker := ⟨[payload], .loading⟩ } else none
    | .fail message => some (run.finish (.error message))
    | .panic text => some (run.finish (.panicked text))
    -- no loop, no poll and no result before the training loop starts
    | .poll _ | .finish _ => none
  | ⟨[], .announcing⟩ => some (run.workTransition .running [.progress] .looping)
  | ⟨[], .looping⟩ => match deed with
    | .report payload =>
      if payload.isReport then some { run with worker := ⟨[payload], .looping⟩ } else none
    | .poll atBoundary => some (run.goto (.polling .drain atBoundary))
    | .finish earlyStopped => some (run.finish (.ok earlyStopped run.control.wasCancelled))
    | .fail message => some (run.finish (.error message))
    | .panic text => some (run.finish (.panicked text))
    | .proceed => none
  | ⟨[], .polling stage atBoundary⟩ => run.poll atBoundary stage
  | ⟨[], .polled _ _ _⟩ => some (run.goto .looping)

/-- Queues a command without waiting: refused when nobody reads it, or when too many wait. -/
def Run.send (run : Run) (command : RunCommand) : Option Run :=
  if run.listening && run.queue.length < queueDepth then
    some { run with queue := run.queue ++ [command] }
  else none

/-- What happens next to the run, other than by a request to pause, resume or cancel it. -/
inductive Choice
  | supervise (fault : Option String)
  | work (deed : Deed)
  /-- Another route asks something of the trainer. -/
  | ask (log : Option String)
  | askCheckpoint

def Run.advance (choice : Choice) (run : Run) : Option Run :=
  match choice with
  | .supervise fault => run.supervise fault
  | .work deed => run.work deed
  | .ask log => run.send (.trainer log)
  | .askCheckpoint => run.send .checkpoint

/-! ### Requests -/

inductive Request
  | pause
  | resume
  | cancel (cancelAt : CancelAt) (checkpoint : Bool)
  deriving DecidableEq, Repr

inductive Answer
  | accepted (status : RunStatus)
  | invalid
  | illegal (status : RunStatus)
  /-- The command could not be queued. -/
  | unsent

/-- Where the handler of a request is. -/
inductive HandlerStage
  /-- About to read the status. -/
  | read
  | send
  /-- The command is queued; the transition that announces it is not made. -/
  | announce
  /-- The run was read queued, and is to be cancelled on the spot. -/
  | cancelQueued
  | accept
  | answered (answer : Answer)

/-- A request, and where its handler is. -/
structure Handler where
  request : Request
  agent : Agent HandlerStage

def Handler.new (request : Request) : Handler := ⟨request, ⟨[], .read⟩⟩

def Request.command : Request → RunCommand
  | .pause => .pause
  | .resume => .resume
  | .cancel cancelAt checkpoint => .cancel cancelAt checkpoint

/-- Where a handler goes from the status it reads. -/
def Request.dispatch (request : Request) (status : RunStatus) : HandlerStage :=
  match request with
  | .pause => match status with
    | .paused | .pausing => .accept
    | .running | .starting => .send
    | status => .answered (.illegal status)
  | .resume => match status with
    | .running | .starting => .accept
    | .paused | .pausing => .send
    | status => .answered (.illegal status)
  | .cancel cancelAt checkpoint =>
    -- a checkpoint needs a resumable boundary
    if checkpoint && cancelAt = .now then .answered .invalid
    else match status with
      | .cancelling | .cancelled => .accept
      | .queued | .resolving => .cancelQueued
      | .starting | .running | .pausing | .paused => .send
      | status => .answered (.illegal status)

/-- The transition that announces a command, if the handler makes one. A run moves back to
`running` by itself, when its callback wakes. -/
def Request.announces : Request → Option RunStatus
  | .pause => some .pausing
  | .resume => none
  | .cancel _ _ => some .cancelling

/-- A step of a handler. -/
def Handler.handle (handler : Handler) (run : Run) : Option (Handler × Run) :=
  let request := handler.request
  match handler.agent with
  | ⟨payload :: rest, stage⟩ =>
    some (⟨request, rest, stage⟩, { run with events := run.events ++ [payload] })
  | ⟨[], .read⟩ => some (⟨request, [], request.dispatch run.state.status⟩, run)
  | ⟨[], .send⟩ => match run.send request.command with
    | none => some (⟨request, [], .answered .unsent⟩, run)
    | some run =>
      some (⟨request, [], if request.announces.isSome then .announce else .accept⟩, run)
  | ⟨[], .announce⟩ => match request.announces with
    | none => none
    | some status =>
      let (state, outbox) := run.state.publish status
      some (⟨request, outbox, .accept⟩, { run with state })
  | ⟨[], .cancelQueued⟩ =>
    let (state, outbox) := run.state.publish .cancelled
    some (⟨request, outbox ++ [.terminal .cancelled none], .accept⟩, { run with state })
  | ⟨[], .accept⟩ => some (⟨request, [], .answered (.accepted run.state.status)⟩, run)
  | ⟨[], .answered _⟩ => none

/-- A run and the requests made of it. -/
abbrev Serving := Config Run Handler

/-- One step of the server on a run. -/
abbrev Serves : Serving → Serving → Prop :=
  Interleaved (fun run run' => ∃ choice, run.advance choice = some run')
    (fun handler => ∃ request, handler = .new request)
    fun handler run handler' run' => handler.handle run = some (handler', run')

end Retrograd.Server
