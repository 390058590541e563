import Retrograd.Infer.Compose
import Retrograd.Infer.Admit

/-!
# The scheduler's step

One iteration removes cancelled sequences, admits, composes and executes one step, emits what
was sampled and removes what finished. A failed iteration fails every live request. The
operations a caller has — submit, cancel, read, pin, adapters, pump — are the labels of a
transition system, and a run is any sequence of them from an initialized scheduler.
-/

namespace Retrograd.Infer

open Logic

section

variable (w : World)

/-! ### Finishing a member -/

/-- Sends a member's final event, unless it is cancelled; a client that does not take it cancels
the request. -/
def sendEnd (member : LiveMember) (reason : FinishReason) (text : Bytes) (cacheHit : ℕ) :
    M Unit := do
  if reason = .cancelled then cancelStream member.cancelled
  else
    match member.events with
    | none => throw (.panic .noSender)
    | some id =>
      if !(← sendBounded w id (.done member.index reason text cacheHit)) then
        cancelStream member.cancelled

/-- Hands a finished sequence's slot to the prefix tree as a dormant node, or empties it. -/
def handOver (ns : Namespace) (path : List Token) (slot : ℕ) : M (Option ℕ) := do
  let (posMin, posMax) ← invoke w (Backend.seqPos w slot)
  let resident := if posMin = 0 then (posMax + 1).toNat else 0
  let s ← get
  if s.options.prefixCache && 0 < resident && s.options.minPrefixLen ≤ resident
      && resident ≤ path.length then
    let (node, attached) ← onTree fun kv => kv.insert ns (path.take resident) slot
    if !attached then seqRm w slot
    pure (some node)
  else
    seqRm w slot
    pure none

/-- Retains a finished sequence's node for its caller, letting go the retention it replaces. -/
def retainFinished (retention : Option Retention) (reason : FinishReason) (node : Option ℕ) :
    M Unit := do
  match retention with
  | none => pure ()
  | some retention =>
    if reason = .cancelled then pure ()
    else
      match retention.release with
      | some release =>
        let _ ← releaseRetained release
      | none => pure ()
      match node with
      | some node => retain w retention.key node
      | none => pure ()

/-- Ends one member: final event, slot handed over, per-request backend state released. -/
def finishMember (g m : ℕ) (reason : FinishReason) : M Unit := do
  let group ← groupAt g
  let member ← memberAt group m
  if !member.live then pure ()
  else
    let (text, detok) := member.detok.finish
    modify fun s => s.setGroup g fun group => { group with
      reserved := group.reserved - member.reservedShare
      members := group.members.modify m fun member =>
        { member with live := false, detok, events := none, retention := none } }
    if member.events.isNone then throw (.panic .noSender)
    sendEnd w member reason text group.cacheHit
    let node ← handOver w (adapterNamespace group.adapter) (group.prompt ++ member.history)
      member.slot
    query w ()
    retainFinished w member.retention reason node

/-! ### Emitting a token -/

/-- The bytes of a sampled token; an end-of-generation token contributes no text. -/
def sampledPiece (member : LiveMember) (token : Token) : M Bytes := do
  let silent ← if member.unparseSpecial then query w (w.isEog token) else pure false
  if silent then pure [] else query w (w.piece token member.unparseSpecial)

/-- The top entries of a sampled position, each with its piece. -/
def topPieces (unparseSpecial : Bool) : List (Token × F32) → M (List TopLogprob)
  | [] => pure []
  | (token, logprob) :: rest => do
    let piece := (← attempt (query w (w.piece token unparseSpecial))).getD []
    return ⟨token, logprob, piece⟩ :: (← topPieces unparseSpecial rest)

/-- Why a member ends after its last token, if it does. -/
def stopReason (member : LiveMember) : Option FinishReason :=
  if member.limit ≤ member.generated then
    if member.sampling.maxNewTokens ≤ member.limit then some .maxTokens else some .contextFull
  else none

/-- Why a member ends after a token was offered to its stream, if it does. -/
def endReason (member : LiveMember) (token : Token) (sent stopHit : Bool) :
    M (Option FinishReason) :=
  if !sent then pure (some .cancelled)
  else if stopHit then pure (some .stop)
  else do
    let eog ← query w (w.isEog token)
    pure (if eog then some .eog else stopReason member)

/-- Emits one sampled token to its member's stream and applies the stop criteria. -/
def emitSampled (g m : ℕ) (produced : StepOutRow) : M Unit := do
  let group ← groupAt g
  let member ← memberAt group m
  if ← isCancelled member.cancelled then finishMember w g m .cancelled
  else if !produced.sampled then
    throw (.error (.failed "a sampling step row produced no token"))
  else
    modify fun s => s.setMember g m fun member => { member with
      generated := member.generated + 1
      nextToken := produced.token
      history := member.history ++ [produced.token] }
    let piece ← sampledPiece w member produced.token
    let ((text, stopHit), detok) := member.detok.pushBytes piece
    modify fun s => s.setMember g m fun member => { member with detok }
    let topLogprobs ← if 0 < member.nTopLogprobs then
        topPieces w member.unparseSpecial produced.top
      else pure []
    match member.events with
    | none => throw (.panic .noSender)
    | some id =>
      let sent ← sendBounded w id (.token {
        index := member.index, token := produced.token, logprob := produced.logprob
        sampledLogprob := if member.wantLogprob then some produced.sampledLogprob else none
        forced := produced.forced, text, piece, topLogprobs })
      let grown := { member with generated := member.generated + 1 }
      match ← endReason w grown produced.token sent stopHit with
      | some reason => finishMember w g m reason
      | none => pure ()

/-! ### Cancellation and failure -/

/-- The first live member whose request is not cancelled. -/
def replacement (s : Scheduler) (group : LiveGroup) : Option ℕ :=
  group.members.findIdx? fun member => member.live && !(s.streams member.cancelled).cancelled

/-- Moves a partially prefilled prefix from a cancelled leader to another member. -/
def replaceLeader (g : ℕ) : M Unit := do
  let group ← groupAt g
  match group.phase with
  | .prefill pos =>
    let leader ← memberAt group group.leader
    if ← isCancelled leader.cancelled then
      match replacement (← get) group with
      | none => pure ()
      | some m =>
        let member ← memberAt group m
        if 0 < pos then seqCp w leader.slot member.slot none
        modify fun s => s.setGroup g fun group => { group with leader := m }
  | _ => pure ()

/-- The live members of a group whose request is cancelled. -/
def cancelledMembers (s : Scheduler) (group : LiveGroup) : List ℕ :=
  group.members.zipIdx.filterMap fun (member, m) =>
    if member.live && (s.streams member.cancelled).cancelled then some m else none

/-- Keeps the groups that still have a live member. -/
def dropFinished : M Unit :=
  modify fun s => { s with live := s.live.filter fun group => group.members.any LiveMember.live }

/-- A dropped stream removes its request at the next step. -/
def removeCancelled : M Unit := do
  (List.range (← get).live.length).forM fun g => do
    replaceLeader w g
    let group ← groupAt g
    (cancelledMembers (← get) group).forM fun m => finishMember w g m .cancelled
  dropFinished

/-- Releases a slot and its request state, whatever the backend answers. -/
def release (slot : ℕ) : M Unit := do
  let _ ← attempt (seqRm w slot)
  let _ ← attempt (query w ())

/-- After a failed step: clears every touched slot. -/
def rollback (plan : Plan) : M Unit :=
  plan.forM fun (_, kind) => do
    match kind with
    | .decode g m | .terminal g m => release w (← memberAt (← groupAt g) m).slot
    | .prefill g _ _ => do
      let group ← groupAt g
      release w (← memberAt group group.leader).slot

/-- A step that failed while the pool is saturated is a capacity condition. -/
def classifyStepError (error : InferError) (needed : ℕ) : M InferError := do
  match error with
  | .backend _ =>
    match ← attempt (memory w) with
    | some memory =>
      let available := memory.cellsTotal - memory.cellsUsed
      pure (if available < needed then .kvFull needed available else error)
    | none => pure error
  | _ => pure error

/-- Sends the failure to a live member and ends it; returns its slot for release. -/
def failMember (error : InferError) (g m : ℕ) : M (Option ℕ) := do
  let member ← memberAt (← groupAt g) m
  if !member.live then pure none
  else
    match member.events with
    | some id =>
      let _ ← sendBounded w id (.error error.clone)
    | none => pure ()
    modify fun s => s.setMember g m fun member => { member with events := none, live := false }
    pure (some member.slot)

/-- The indices of every member of every group. -/
def memberIndices (live : List LiveGroup) : List (ℕ × ℕ) :=
  live.zipIdx.flatMap fun (group, g) => (List.range group.members.length).map (g, ·)

/-- Fails the members at the given indices; returns the slots to release. -/
def failMembers (error : InferError) : List (ℕ × ℕ) → M (List ℕ)
  | [] => pure []
  | (g, m) :: rest => do
    let slot ← failMember w error g m
    return slot.toList ++ (← failMembers error rest)

/-- A fatal error for every live request: broadcast, then release. -/
def failAll (error : InferError) : M Unit := do
  let slots ← failMembers w error (memberIndices (← get).live)
  slots.forM (release w)
  modify fun s => { s with live := [] }

/-! ### One iteration -/

/-- Copies a completed prefix from the leader to the other live members. -/
def sharePrefix (group : LiveGroup) : M Unit := do
  let leader ← memberAt group group.leader
  if 0 < group.prefixEnd then
    (group.members.filter fun member => member.live && member.slot != leader.slot).forM
      fun member => seqCp w leader.slot member.slot none

/-- The phase transition of one group that needs no step row. -/
def advancePhase (g : ℕ) : M Unit := do
  let group ← groupAt g
  match group.phase with
  | .prefill pos =>
    if pos = group.prefixEnd then
      if 1 < group.members.length then
        sharePrefix w group
        modify fun s => s.setGroup g fun group => { group with phase := .terminal 0 }
      else modify fun s => s.setGroup g fun group => { group with phase := .decode }
  | .terminal next =>
    if (group.members.drop next).all fun member => !member.live then
      modify fun s => s.setGroup g fun group => { group with phase := .decode }
  | .decode => pure ()

def advancePhases : M Unit := do
  (List.range (← get).live.length).forM (advancePhase w)

/-- Accounts one executed row: its phase, then what it sampled. -/
def settleRow (row : ℕ) (kind : RowKind) : M Unit := do
  match kind with
  | .decode g m => emitSampled w g m (w.produced (← get).out row)
  | .terminal g m =>
    emitSampled w g m (w.produced (← get).out row)
    modify fun s => s.setGroup g fun group =>
      match group.phase with
      | .terminal next =>
        { group with phase :=
            if group.members.length ≤ max next (m + 1) then .decode
            else .terminal (max next (m + 1)) }
      | _ => group
  | .prefill g finish sampled =>
    modify fun s => s.setGroup g fun group =>
      match group.phase with
      | .prefill _ => { group with phase := .prefill finish }
      | _ => group
    match sampled with
    | some m => emitSampled w g m (w.produced (← get).out row)
    | none => pure ()

/-- What an iteration does before it composes a step. -/
def prepare : M Unit := do
  modify fun s => { s with
    queue := s.queue.filter fun queued => !(s.streams queued.stream).cancelled }
  removeCancelled w
  if !(← get).retiring.isEmpty then releaseRetired w
  admitPass w
  advancePhases w

/-- The plan of the next step, and the rotation states it leaves. -/
def composeStep : M (Plan × ℕ) := do
  let s ← get
  let composed := compose s.live s.options.nBatch s.options.mode s.decodeCursor s.prefillTurn
  set { s with decodeCursor := composed.decodeCursor, prefillTurn := composed.prefillTurn }
  match composed.plan with
  | .ok plan => pure plan
  | .error stop => throw stop

/-- Executes a plan: a failed step clears every touched slot before it is reported. -/
def executeStep (plan : Plan) (total : ℕ) : M Unit := do
  match ← settle (invoke w (Backend.step w (plan.map Prod.fst))) with
  | .error (.error error) =>
    let error ← classifyStepError w error total
    rollback w plan
    throw (.error error)
  | .error stop => throw stop
  | .ok out =>
    modify fun s => { s with out }
    plan.zipIdx.forM fun ((_, kind), row) => settleRow w row kind
    dropFinished
    if !(← get).retiring.isEmpty then releaseRetired w

/-- One scheduler iteration; returns whether a step was executed. -/
def stepOnce : M Bool := do
  prepare w
  if (← get).live.isEmpty then pure false
  else
    let (plan, total) ← composeStep
    if plan.isEmpty then pure false
    else
      executeStep w plan total
      pure true

/-- Runs one iteration and returns whether it made progress; a failure fails every live request
and is returned. -/
def pump : M Bool := do
  let before := ((← get).queue.length, (← get).liveLen)
  match ← settle (stepOnce w) with
  | .ok stepped =>
    pure (stepped || ((← get).queue.length, (← get).liveLen) != before)
  | .error (.error error) =>
    failAll w error
    throw (.error error)
  | .error stop => throw stop

/-! ### The caller's operations -/

/-- One-time pool setup: reads the pool geometry and clears every slot. -/
def initializePool : M Unit := do
  let memory ← memory w
  if i32Max < memory.nSlots then
    throw (.error (.overflow "backend slot count exceeds signed native IDs"))
  else
    modify fun s => { s with nSlots := memory.nSlots }
    (List.range memory.nSlots).forM (seqRm w)
    let active ← backendAdapter w
    modify fun s => { s with activeAdapter := active }

/-- Submits one request; returns the id of its event stream. -/
def submit (request : Request) : M ℕ :=
  match request.validate with
  | .error error => throw (.error error)
  | .ok () => do
    let s ← get
    if s.options.queueCapacity ≤ s.queue.length then
      throw (.error (.queueFull s.options.queueCapacity))
    else
      let id := s.nextStream
      set { s with
        queue := s.queue ++ [(⟨request, id⟩ : Queued)]
        streams := Function.update s.streams id
          (.new (max s.options.eventCapacity (request.n + 2)) request.n)
        nextStream := id + 1 }
      pure id

/-- The client drops its stream. -/
def cancel (id : ℕ) : M Unit :=
  modify fun s => s.setStream id fun st => { st with dropped := true, cancelled := true }

/-- The client takes up to `n` events from its stream. -/
def read (id n : ℕ) : M Unit := modify fun s =>
  s.setStream id fun st => { st with consumed := min (st.consumed + n) st.sent.length }

/-- Refuses every queued request with a cancellation error. -/
def failQueued : M Unit := do
  (← get).queue.forM fun queued => trySend queued.stream (.error .cancelled)
  modify fun s => { s with queue := [] }

/-- The first slot no dormant prefix holds. -/
def unheldSlot (s : Scheduler) : Option ℕ :=
  (List.range s.nSlots).find? fun slot => !s.kv.residentSlots.contains slot

/-- The rounds of `lendSlot`, each of which evicts a node. -/
def lendFrom (cells : ℕ) : ℕ → M (Option ℕ)
  | 0 => throw .outOfFuel
  | fuel + 1 => do
    let (slotsLeft, cellsLeft) ← capacity w
    if 0 < slotsLeft && cells ≤ cellsLeft then return unheldSlot (← get)
    else if ← evictOneLru w then lendFrom cells fuel
    else pure none

/-- Lends the caller one pool slot with `cells` of the pool beside the dormant prefixes. The
caller leaves it empty before the next iteration. -/
def lendSlot (cells : ℕ) : M (Option ℕ) := do
  let s ← get
  if !s.live.isEmpty then
    throw (.error (.failed "a slot can only be lent while no sequence is live"))
  else lendFrom w cells (s.kv.residentSlotCount + 1)

end

/-! ### Runs -/

/-- The operations of a scheduler's caller. -/
inductive Op where
  | submit (request : Request)
  | cancel (id : ℕ)
  | read (id n : ℕ)
  | pin (tokens : List Token)
  | unpin (id : PinId)
  | loadAdapter (name : String)
  | unloadAdapter (name : String)
  | lendSlot (cells : ℕ)
  | failQueued
  | pump
  deriving DecidableEq, Repr

/-- The program of an operation. -/
def runOp (w : World) : Op → M Unit
  | .submit request => do let _ ← submit request
  | .cancel id => cancel id
  | .read id n => read id n
  | .pin tokens => do let _ ← pinPrefix w tokens
  | .unpin id => do let _ ← unpin id
  | .loadAdapter name => loadAdapter w name
  | .unloadAdapter name => unloadAdapter w name
  | .lendSlot cells => do let _ ← lendSlot w cells
  | .failQueued => failQueued
  | .pump => do let _ ← pump w

/-- The state an operation leaves: an error is returned to the caller, who goes on. A panic or
an endless loop leaves none. -/
def Op.next (w : World) (op : Op) (s : Scheduler) : Option Scheduler :=
  match runOp w op s with
  | .ok _ s' => some s'
  | .error (.error _) s' => some s'
  | .error _ _ => none

/-- The states of a scheduler in the world `w`: an initialized one over any backend, and those
its operations lead to. -/
inductive Reachable (w : World) : Scheduler → Prop where
  | init {b : Backend} {options : SchedulerOptions} {s : Scheduler} (hb : b.Valid)
      (h : initializePool w (.new b options) = .ok () s) : Reachable w s
  | step {s s' : Scheduler} (op : Op) (hs : Reachable w s) (h : op.next w s = some s') :
      Reachable w s'

end Retrograd.Infer
