import Retrograd.Logic.Interleave
import Retrograd.Logic.Text
import Retrograd.Server.Events

/-!
# Watching a run

Any number of producers publish events of one run while **streams** follow it and clients pull its
**metrics** page by page. A stream subscribes first, samples whether the history is complete second
and replays third; what the broadcast repeats is filtered out by its number.
-/

namespace Retrograd.Server

open Logic
open Relation (ReflTransGen)

/-- How many events a live subscriber may fall behind before it is told it lagged. -/
def broadcastCapacity : ℕ := 1024

/-! ### Streams -/

/-- What a stream yields. -/
inductive Frame
  | event (event : RunEvent)
  /-- The client fell behind, and is told from where to catch up. -/
  | lagged (since : ℕ)

def Frame.event? : Frame → Option RunEvent
  | .event served => some served
  | .lagged _ => none

/-- Where a stream is. -/
inductive StreamStage
  | subscribe
  | sample
  | replay (replay : Replay)
  /-- Yielding the replay. -/
  | serve (events : List RunEvent)
  /-- Waiting on the broadcast. -/
  | recv
  | ended

/-- One stream of a run's events. -/
structure Subscriber where
  since : ℕ
  /-- How much of the broadcast its receiver is past. -/
  position : ℕ
  terminalAlready : Bool
  last : ℕ
  frames : List Frame
  stage : StreamStage

/-- `stream_from`. -/
def Subscriber.streamFrom (since : ℕ) : Subscriber := ⟨since, 0, false, since, [], .subscribe⟩

/-- One event of the replay or of the broadcast. -/
def Subscriber.take (subscriber : Subscriber) (event : RunEvent) (next : StreamStage) :
    Subscriber :=
  -- already served
  if event.seq ≤ subscriber.last then { subscriber with stage := next }
  else { subscriber with
    last := event.seq
    frames := subscriber.frames ++ [.event event]
    stage := if event.isTerminal then .ended else next }

def Subscriber.step (subscriber : Subscriber) (log : RunLog) : Option Subscriber :=
  match subscriber.stage with
  | .subscribe => some { subscriber with position := log.live.length, stage := .sample }
  | .sample => some { subscriber with terminalAlready := log.finished, stage := .replay .ring }
  | .replay replay => match replay.step subscriber.since log with
    | none => none
    | some (.inl replay) => some { subscriber with stage := .replay replay }
    | some (.inr events) => some { subscriber with stage := .serve events }
  | .serve [] =>
    some { subscriber with stage := if subscriber.terminalAlready then .ended else .recv }
  | .serve (event :: rest) => some (subscriber.take event (.serve rest))
  | .recv =>
    -- the broadcast drops its oldest events rather than block
    if broadcastCapacity < log.live.length - subscriber.position then
      some { subscriber with
        position := log.live.length - broadcastCapacity
        frames := subscriber.frames ++ [.lagged subscriber.last] }
    else match log.live[subscriber.position]? with
      | none => none
      | some event => some
        ({ subscriber with position := subscriber.position + 1 }.take event .recv)
  | .ended => none

/-- The events a stream has yielded. -/
def Subscriber.events (subscriber : Subscriber) : List RunEvent :=
  subscriber.frames.filterMap Frame.event?

/-- The stream was not told it lagged. -/
def Subscriber.unlagged (subscriber : Subscriber) : Bool :=
  subscriber.frames.all fun frame => frame.event?.isSome

/-! ### Metrics -/

/-- Largest page of metrics. -/
def maxMetrics : ℕ := 1000

structure MetricsQuery where
  /-- Comma-separated metric names. Absent means every name. -/
  names : Option String
  limit : Option ℕ

structure MetricsSample where
  seq : ℕ
  time : ℕ
  iteration : ℕ
  globalStep : ℕ
  values : List (String × Float32)

structure MetricsPage where
  metrics : List MetricsSample
  nextSince : ℕ

def MetricsQuery.pageLimit (query : MetricsQuery) : ℕ :=
  max 1 (min (query.limit.getD maxMetrics) maxMetrics)

def MetricsQuery.wanted (query : MetricsQuery) : Option (List String) :=
  query.names.map fun names =>
    ((names.toList.splitOn ',').map fun name => trim (String.ofList name)).filter (· ≠ "")

/-- The sample of a metrics event, with the wanted values. -/
def RunEvent.sample (wanted : Option (List String)) (event : RunEvent) : Option MetricsSample :=
  match event.payload with
  | .metrics iteration globalStep values =>
    some ⟨event.seq, event.time, iteration, globalStep, match wanted with
      | some names => values.filter fun value => value.1 ∈ names
      | none => values⟩
  | _ => none

/-- The events of a replay, until the page is full. -/
def collect (wanted : Option (List String)) (limit : ℕ) :
    List MetricsSample → ℕ → List RunEvent → MetricsPage
  | samples, nextSince, [] => ⟨samples, nextSince⟩
  | samples, nextSince, event :: rest =>
    if samples.length = limit then ⟨samples, nextSince⟩
    else match event.sample wanted with
      | none => collect wanted limit samples event.seq rest
      | some sample => collect wanted limit (samples ++ [sample]) event.seq rest

def MetricsQuery.page (query : MetricsQuery) (since : ℕ) (events : List RunEvent) : MetricsPage :=
  collect query.wanted query.pageLimit [] since events

/-- A client that pulls page after page, each from where the one before it stopped. -/
structure Puller where
  start : ℕ
  nextSince : ℕ
  /-- What is still to be asked. -/
  queries : List MetricsQuery
  pages : List MetricsPage
  /-- The replay of the page that is being answered. -/
  asking : Option Replay

def Puller.pull (since : ℕ) (queries : List MetricsQuery) : Puller := ⟨since, since, queries, [], none⟩

def Puller.step (puller : Puller) (log : RunLog) : Option Puller :=
  match puller.queries with
  | [] => none
  | query :: rest => match puller.asking with
    | none => some { puller with asking := some .ring }
    | some replay => match replay.step puller.nextSince log with
      | none => none
      | some (.inl replay) => some { puller with asking := some replay }
      | some (.inr events) =>
        let page := query.page puller.nextSince events
        some { puller with
          nextSince := page.nextSince
          queries := rest
          pages := puller.pages ++ [page]
          asking := none }

/-- The samples of all pages so far. -/
def Puller.samples (puller : Puller) : List MetricsSample :=
  puller.pages.flatMap MetricsPage.metrics

/-! ### The system -/

/-- What a producer calls. -/
inductive Call
  | emit (payload : RunEventPayload)
  | transition (status : RunStatus)
  | progress

/-- The section of a call under the state's lock, and what it leaves to emit. -/
def Call.apply (state : RunState) : Call → RunState × List RunEventPayload
  | .emit payload => (state, [payload])
  | .transition status => state.publish status
  | .progress => (state, [.progress])

/-- Everything that acts on a run's handle. -/
inductive Task
  /-- A producer, and when its event is stamped. -/
  | call (call : Call) (time : ℕ)
  | emitting (outbox : List RunEventPayload) (time : ℕ)
  | stream (subscriber : Subscriber)
  | pull (puller : Puller)

/-- The handle. -/
structure Store where
  state : RunState
  log : RunLog

def Task.step : Task → Store → Option (Task × Store)
  | .call request time, store =>
    let (state, outbox) := request.apply store.state
    some (.emitting outbox time, { store with state })
  | .emitting [] _, _ => none
  | .emitting (payload :: outbox) time, store =>
    (store.log.begin payload time).map fun log => (.emitting outbox time, { store with log })
  | .stream subscriber, store =>
    (subscriber.step store.log).map fun subscriber => (.stream subscriber, store)
  | .pull puller, store => (puller.step store.log).map fun puller => (.pull puller, store)

/-- What may start at any moment. -/
inductive Task.Fresh : Task → Prop
  | call (call : Call) (time : ℕ) : Fresh (.call call time)
  | stream (since : ℕ) : Fresh (.stream (.streamFrom since))
  | pull (since : ℕ) (queries : List MetricsQuery) : Fresh (.pull (.pull since queries))

/-- The emission that holds the lock goes on. -/
def Store.proceed (_ : Unit) (store : Store) : Option Store :=
  store.log.proceed.map fun log => { store with log }

/-- One step of a run that is watched. -/
def Watches : Config Store Task → Config Store Task → Prop :=
  Interleaved (fun store store' => ∃ choice, Store.proceed choice store = some store') Task.Fresh
    fun task store task' store' => task.step store = some (task', store')

/-- A run that was just created, or one that was read back from the journal of an earlier
process. -/
def Store.Opens (store : Store) : Prop :=
  store.log = .created ∨
    ∃ journal, Numbered RunEvent.seq journal ∧ store.log = .restored journal

end Retrograd.Server
