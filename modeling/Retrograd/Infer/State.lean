import Retrograd.Infer.Backend
import Retrograd.Infer.Detok
import Retrograd.Logic.Wp

/-!
# The scheduler's state

A `Scheduler` owns the backend, the queue, the live groups and the prefix tree. Its operations
are programs that run on this state and **keep the state they reached when they fail**: an
error leaves whatever was done before it.

The event streams stand beside it, by the id handed out when their request was submitted: all
events a stream accepted, how many its client took, and whether the client dropped it. A stream
that no owner can send to any more is closed.
-/

namespace Retrograd.Infer

open Logic

/-- The largest `i32`, the bound of positions and request ids. -/
def i32Max : ℕ := 2 ^ 31 - 1

/-- How queued requests are admitted. -/
inductive AdmissionMode where
  | lockstep
  | continuous
  deriving DecidableEq, Repr

/-- The scheduler's knobs. -/
structure SchedulerOptions where
  mode : AdmissionMode
  nBatch : ℕ
  queueCapacity : ℕ
  eventCapacity : ℕ
  prefixCache : Bool
  minPrefixLen : ℕ
  maxSnapshotBytes : ℕ
  swapMinTokens : ℕ
  maxRetained : ℕ
  retainTtl : ℕ
  deriving DecidableEq, Repr

/-- The bounded event stream of one request. -/
structure Stream where
  capacity : ℕ
  /-- How many completions its request asked for. -/
  completions : ℕ
  /-- Every event the stream accepted, oldest first. -/
  sent : List Event
  /-- How many of them the client took. -/
  consumed : ℕ
  /-- The client dropped its end. -/
  dropped : Bool
  /-- The cancellation flag shared by the stream and the request's owners. -/
  cancelled : Bool
  /-- A send gave up on the full stream. -/
  overflowed : Bool
  deriving DecidableEq, Repr

/-- The stream an id stands for before it is handed out. -/
def Stream.unborn : Stream := ⟨0, 0, [], 0, false, false, false⟩

/-- The stream of a newly submitted request. -/
def Stream.new (capacity completions : ℕ) : Stream :=
  ⟨capacity, completions, [], 0, false, false, false⟩

def Stream.full (s : Stream) : Bool := s.capacity ≤ s.sent.length - s.consumed

/-- A request waiting for admission, with the id of its stream. -/
structure Queued where
  request : Request
  stream : ℕ
  deriving DecidableEq, Repr

inductive GroupPhase where
  /-- The leader is prefilling `[0, prefixEnd)` in chunks. -/
  | prefill (pos : ℕ)
  /-- The prefix is copied; each member still needs its terminal prompt token sampled. -/
  | terminal (next : ℕ)
  /-- Every member decodes one token per step. -/
  | decode
  deriving DecidableEq, Repr

structure LiveMember where
  slot : ℕ
  requestId : ℕ
  /-- The completion index within the member's own request. -/
  index : ℕ
  sampling : SamplingParams
  wantLogprob : Bool
  /-- The stop budget. -/
  limit : ℕ
  /-- This member's share of the group's cell reservation. -/
  reservedShare : ℕ
  generated : ℕ
  nextToken : Token
  /-- The tokens this member generated, in order. -/
  history : List Token
  live : Bool
  nTopLogprobs : ℕ
  unparseSpecial : Bool
  detok : Detokenizer
  /-- The sender of the member's events, until its last one. -/
  events : Option ℕ
  /-- The stream whose cancellation flag the member shares. -/
  cancelled : ℕ
  retention : Option Retention
  deriving DecidableEq, Repr

structure LiveGroup where
  prompt : List Token
  adapter : RowAdapter
  /-- One less than the prompt for a shared group, the prompt for a single member. -/
  prefixEnd : ℕ
  /-- The member holding the shared prefix while it is being prefilled. -/
  leader : ℕ
  /-- Cells reserved for the whole group. -/
  reserved : ℕ
  /-- Prompt tokens copied from the prefix tree instead of prefilled. -/
  cacheHit : ℕ
  members : List LiveMember
  phase : GroupPhase
  deriving DecidableEq, Repr

/-- A retained sequence: its pin and when it was taken. -/
structure Retained where
  pin : PinId
  since : ℕ
  deriving DecidableEq, Repr

/-- The counters of the prefix cache. -/
structure KvStats where
  hits : ℕ := 0
  misses : ℕ := 0
  prefilledCells : ℕ := 0
  promptCells : ℕ := 0
  evictions : ℕ := 0
  swaps : ℕ := 0
  deriving DecidableEq, Repr

/-- The scheduler, its backend and the streams of the requests it accepted. -/
structure Scheduler where
  backend : Backend
  options : SchedulerOptions
  queue : List Queued
  live : List LiveGroup
  nSlots : ℕ
  nextRequestId : ℕ
  /-- The step whose output the buffer holds. -/
  out : ℕ
  decodeCursor : ℕ
  prefillTurn : Bool
  kv : PrefixTree
  kvKey : Option KvCacheKey
  kvStats : KvStats
  retained : Map String Retained
  /-- The adapter last activated on the backend. -/
  activeAdapter : Option String
  /-- Adapters the backend serves per row, by name. -/
  rowAdapters : Map String ℕ
  /-- Per-row adapters unloaded or replaced while live requests still decode under them. -/
  retiring : List ℕ
  unloadedAdapters : List String
  streams : ℕ → Stream
  /-- The next stream id. -/
  nextStream : ℕ
  clock : ℕ
  /-- Clock reads and client waits so far. -/
  reads : ℕ
  /-- The requests an admission pass popped from the queue and has not placed: what its local
  variables own. An error drops them. -/
  inHand : List Queued

/-- Where the source would panic. -/
inductive PanicSite where
  | noGroup
  | noMember
  | noSender
  | noFreeSlot
  | noFront
  | noCandidateSlot
  | noSnapshot
  deriving DecidableEq, Repr

/-- Why a program of the scheduler does not return. -/
inductive Stop where
  | error (error : InferError)
  | panic (site : PanicSite)
  /-- A loop whose fuel ran out. -/
  | outOfFuel
  /-- The search for a free request id goes round for ever: every id is taken. -/
  | noFreeId
  deriving DecidableEq, Repr

/-- A program of the scheduler. -/
abbrev M := EStateM Stop Scheduler

namespace Scheduler

/-- A fresh scheduler over a backend. -/
def new (backend : Backend) (options : SchedulerOptions) : Scheduler :=
  { backend, options := { options with queueCapacity := max options.queueCapacity 1 }, queue := [],
    live := [], nSlots := 0, nextRequestId := 1, out := 0, decodeCursor := 0,
    prefillTurn := false, kv := .new, kvKey := none, kvStats := {}, retained := ∅,
    activeAdapter := none, rowAdapters := ∅, retiring := [], unloadedAdapters := [],
    streams := fun _ => .unborn, nextStream := 0, clock := 0, reads := 0, inHand := [] }

/-- Updates one live group. -/
def setGroup (s : Scheduler) (g : ℕ) (f : LiveGroup → LiveGroup) : Scheduler :=
  { s with live := s.live.modify g f }

/-- Updates one member of a live group. -/
def setMember (s : Scheduler) (g m : ℕ) (f : LiveMember → LiveMember) : Scheduler :=
  s.setGroup g fun group => { group with members := group.members.modify m f }

/-- Updates one stream. -/
def setStream (s : Scheduler) (id : ℕ) (f : Stream → Stream) : Scheduler :=
  { s with streams := Function.update s.streams id (f (s.streams id)) }

/-- The live members, in live order. -/
def liveMembers (s : Scheduler) : List LiveMember :=
  s.live.flatMap fun group => group.members.filter LiveMember.live

/-- Live (admitted, not finished) sequences. -/
def liveLen (s : Scheduler) : ℕ := s.liveMembers.length

end Scheduler

/-! ### Primitive programs -/

/-- One backend call: it fails before it does anything when the world says so. -/
def invoke {α : Type} (w : World) (f : Backend → Reply α) : M α := fun s =>
  let backend := { s.backend with calls := s.backend.calls + 1 }
  match w.fault s.backend.calls with
  | some error => .error (.error error) { s with backend }
  | none =>
    match f backend with
    | (.ok a, backend) => .ok a { s with backend }
    | (.error error, backend) => .error (.error error) { s with backend }

/-- A query that reads nothing but the world. -/
def query {α : Type} (w : World) (a : α) : M α := invoke w fun b => (.ok a, b)

/-- Runs `m` and forgets the error it may end with; a panic is not caught. -/
def attempt {α : Type} (m : M α) : M (Option α) := do
  match ← settle m with
  | .ok a => pure (some a)
  | .error (.error _) => pure none
  | .error stop => throw stop

/-- Reads the clock. -/
def now (w : World) : M ℕ := modifyGet fun s =>
  let clock := s.clock + w.elapse s.reads
  (clock, { s with clock, reads := s.reads + 1 })

/-- The group at an index, which the source reads without checking it. -/
def groupAt (g : ℕ) : M LiveGroup := do
  match (← get).live[g]? with
  | some group => pure group
  | none => throw (.panic .noGroup)

/-- A member of a group, likewise. -/
def memberAt (group : LiveGroup) (m : ℕ) : M LiveMember :=
  match group.members[m]? with
  | some member => pure member
  | none => throw (.panic .noMember)

/-- `try_send`, its result ignored: nothing reaches a dropped or a full stream. -/
def trySend (id : ℕ) (event : Event) : M Unit := modify fun s =>
  if (s.streams id).dropped then s
  else if (s.streams id).full then s.setStream id fun st => { st with overflowed := true }
  else s.setStream id fun st => { st with sent := st.sent ++ [event] }

/-- Sends one event to a bounded stream, waiting for its client when it is full; false when the
stream was dropped or stayed full. -/
def sendBounded (w : World) (id : ℕ) (event : Event) : M Bool := do
  let s ← get
  if (s.streams id).dropped then pure false
  else if (s.streams id).full then
    let taken := min (w.clientReads s.reads) ((s.streams id).sent.length - (s.streams id).consumed)
    set { s.setStream id fun st => { st with consumed := st.consumed + taken } with
      reads := s.reads + 1 }
    let s ← get
    if (s.streams id).full then
      set (s.setStream id fun st => { st with overflowed := true })
      pure false
    else
      set (s.setStream id fun st => { st with sent := st.sent ++ [event] })
      pure true
  else
    set (s.setStream id fun st => { st with sent := st.sent ++ [event] })
    pure true

/-- Whether the request of a stream is cancelled. -/
def isCancelled (id : ℕ) : M Bool := return ((← get).streams id).cancelled

/-- Cancels the request of a stream. -/
def cancelStream (id : ℕ) : M Unit :=
  modify fun s => s.setStream id fun st => { st with cancelled := true }

/-- Runs a step of the tree whose walk needed fuel. -/
def onTree {α : Type} (f : PrefixTree → Option (PrefixTree × α)) : M α := do
  match f (← get).kv with
  | some (kv, a) =>
    modify fun s => { s with kv }
    pure a
  | none => throw .outOfFuel

end Retrograd.Infer
