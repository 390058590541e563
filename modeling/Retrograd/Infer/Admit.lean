import Retrograd.Infer.Retention

/-!
# Admission

Queued requests are refused when they can never fit, partitioned by the serialized adapter they
need, and admitted from the front while the pool has room: a **wave** in lockstep mode, one
request at a time in continuous mode. Room is made by evicting least recently used prefix nodes.
A group takes free slots, the longest usable prefix of its prompt, and a reservation net of it.
-/

namespace Retrograd.Infer

open Logic

/-- The largest `u64`, where reservations saturate. -/
def u64Max : ℕ := 2 ^ 64 - 1

/-- The cells one member reserves: prompt and generation budget within the context. -/
def memberNeed (promptLen : ℕ) (sampling : SamplingParams) (nCtxSeq : ℕ) : Option ℕ :=
  if nCtxSeq ≤ promptLen then none
  else some (promptLen + min sampling.maxNewTokens (nCtxSeq - promptLen))

/-- The cells a request reserves. -/
def reservation (request : Request) (nCtxSeq : ℕ) : ℕ :=
  (request.sampling.map fun sampling =>
    (memberNeed request.prompt.length sampling nCtxSeq).getD 0).foldl
      (fun total need => min (total + need) u64Max) 0

/-- Whether a token id lies outside the vocabulary. -/
def outsideVocab (vocab : ℕ) (token : Token) : Bool := token < 0 || (vocab : ℤ) ≤ token

/-- Why a request can never be admitted, if so. -/
def impossible (request : Request) (nCtxSeq nSlots vocab cellsTotal : ℕ) : Option String :=
  let promptTooLong := decide (nCtxSeq ≤ request.prompt.length)
  let tooManyMembers := decide (nSlots < request.n)
  let topTooWide := decide (vocab < request.nTopLogprobs)
  let invalidToken := request.prompt.any (outsideVocab vocab)
  let invalidBias := request.sampling.any fun params =>
    params.logitBias.any fun bias => outsideVocab vocab bias.1
  let need := reservation request nCtxSeq
  if promptTooLong || tooManyMembers || topTooWide || invalidToken || invalidBias
      || decide (cellsTotal < need) then
    some <|
      if promptTooLong then
        s!"the prompt ({request.prompt.length} tokens) leaves no room to generate in the " ++
          s!"per-sequence context ({nCtxSeq})"
      else if tooManyMembers then
        s!"the request asks for {request.n} completions but the pool has {nSlots} slots"
      else if topTooWide then s!"n_top_logprobs exceeds the vocabulary ({vocab})"
      else if invalidBias then s!"logit_bias token ids must be in 0..{vocab}"
      else if invalidToken then s!"prompt tokens must be in 0..{vocab}"
      else
        s!"the reservation (prompt + max_new_tokens = {need} cells) exceeds the KV pool of " ++
          s!"{cellsTotal} cells"
  else none

/-- Request ids wrap from the largest `i32` to 1. -/
def nextId (id : ℕ) : ℕ := if id = i32Max then 1 else id + 1

/-- The first id from `id` on that is neither taken nor the one just handed out. -/
def searchId (taken : List ℕ) (current : ℕ) : ℕ → ℕ → Option ℕ
  | 0, _ => none
  | fuel + 1, id =>
    if taken.contains id || id = current then searchId taken current fuel (nextId id) else some id

section

variable (w : World)

/-! ### Room in the pool -/

/-- Free slots and cells beside the live groups and the dormant prefix slots. -/
def capacity : M (ℕ × ℕ) := do
  let memory ← memory w
  let s ← get
  let usedSlots := s.liveLen + s.kv.residentSlotCount
  let reserved := (s.live.map LiveGroup.reserved).sum
  let committed := max memory.cellsUsed (min (reserved + s.kv.residentCells) u64Max)
  pure (s.nSlots - usedSlots, memory.cellsTotal - committed)

/-- Swaps a node about to be evicted to a host snapshot, when it is long enough and the byte
budget allows; a failed save only costs the swap. -/
def swapOut (node slot : ℕ) : M Unit := do
  let s ← get
  if s.options.swapMinTokens ≤ s.kv.depth node then
    let saveLen := (← attempt (invoke w (Backend.seqSaveLen w slot))).getD 0
    if 0 < saveLen && s.kv.snapshotBytes + saveLen ≤ s.options.maxSnapshotBytes then
      match ← attempt (invoke w (Backend.seqSaveInto w slot)) with
      | some snapshot => modify fun s => { s with
          kv := s.kv.attachSnapshot node snapshot
          kvStats := { s.kvStats with swaps := s.kvStats.swaps + 1 } }
      | none => pure ()

/-- Evicts the least recently used unpinned prefix node; false when no node is evictable. -/
def evictOneLru : M Bool := do
  match (← get).kv.evictionCandidate with
  | none => pure false
  | some node =>
    match (← get).kv.slot node with
    | none => throw (.panic .noCandidateSlot)
    | some slot =>
      swapOut w node slot
      seqRm w slot
      modify fun s => { s with kv := s.kv.detachSlot node }
      if ((← get).kv.snapshot node).isNone then
        onTree fun kv => (kv.remove node).map (·, ())
      modify fun s => { s with kvStats := { s.kvStats with evictions := s.kvStats.evictions + 1 } }
      pure true

/-- The caller's check of a prefix-tree node: a slot frozen at the node's boundary, or a
snapshot at exactly the boundary asked for. -/
def usable (s : Scheduler) (partialOk : Bool) (last node hit : ℕ) : Bool :=
  let applied := min hit last
  let depth := s.kv.depth node
  if applied = 0 || (applied < depth && !partialOk) then false
  else
    match s.kv.slot node with
    | some slot =>
      !w.spanFault s.backend.calls slot && (Backend.seqPos w slot s.backend).1.toOption
        = some (0, (depth : ℤ) - 1)
    | none => (s.kv.snapshot node).isSome && applied = depth

/-- The longest usable prefix-cache hit for `prompt`, always a strict prefix of it. -/
def hitCandidate (ns : Namespace) (prompt : List Token) : M (Option (ℕ × ℕ)) := do
  if !(← get).options.prefixCache || prompt.length < 2 then pure none
  else
    let unified ← query w w.kvUnified
    let hybrid ← if unified then query w w.hybrid else pure true
    let partialOk := unified && !hybrid
    let last := prompt.length - 1
    let s ← get
    match s.kv.longestPrefix ns prompt partialOk (usable w s partialOk last) with
    | none => throw .outOfFuel
    | some found => pure (found.map fun (node, hit) => (node, min hit last))

/-- Whether the front of the queue fits beside what a pending wave already holds, evicting
prefix nodes until it does. Returns its members, its reservation net of its hit, the hit node
and the evictions left. -/
def frontFits (nCtxSeq heldSlots heldCells : ℕ) :
    ℕ → ℕ → M (Option (ℕ × ℕ × Option ℕ) × ℕ)
  | 0, _ => throw .outOfFuel
  | fuel + 1, evictionsLeft => do
    match (← get).queue.head? with
    | none => pure (none, evictionsLeft)
    | some queued =>
      let members := queued.request.n
      let ns := adapterNamespace (rowAdapter (← get) queued.request)
      let hit ← hitCandidate w ns queued.request.prompt
      let shared := hit.elim 0 fun h => h.2 * members
      let need := reservation queued.request nCtxSeq - shared
      let (slotsLeft, cellsLeft) ← capacity w
      if heldSlots + members ≤ slotsLeft && heldCells + need ≤ cellsLeft then
        pure (some (members, need, hit.map Prod.fst), evictionsLeft)
      else if evictionsLeft = 0 then pure (none, 0)
      else if ← evictOneLru w then
        frontFits nCtxSeq heldSlots heldCells fuel (evictionsLeft - 1)
      else if ← releaseOldestRetained then
        frontFits nCtxSeq heldSlots heldCells fuel evictionsLeft
      else pure (none, evictionsLeft)

/-- Enough rounds for `frontFits`: each evicts a node or releases a retention. -/
def frontFuel (s : Scheduler) (evictionsLeft : ℕ) : ℕ := evictionsLeft + s.retained.size + 1

/-! ### Placing a group -/

/-- Applies the longest usable hit for `prompt` into the empty `leaderSlot`; returns its
length. -/
def applyCacheHit (ns : Namespace) (prompt : List Token) (leaderSlot : ℕ) : M ℕ := do
  match ← hitCandidate w ns prompt with
  | none => pure 0
  | some (node, hit) =>
    let s ← get
    match s.kv.slot node with
    | some src =>
      if hit = s.kv.depth node then seqCp w src leaderSlot none
      else seqCp w src leaderSlot (some hit)
    | none =>
      match s.kv.snapshot node with
      | none => throw (.panic .noSnapshot)
      | some snapshot => invoke w (Backend.seqLoad w leaderSlot snapshot)
    modify fun s => { s with kv := s.kv.touch node }
    pure hit

/-- The slots live members and dormant prefix nodes hold. -/
def usedSlots (s : Scheduler) : List ℕ :=
  s.liveMembers.map LiveMember.slot ++ s.kv.residentSlots

/-- Places one member: the first free slot, a fresh request id, and the initial state. -/
def placeMember (queued : Queued) (nCtxSeq : ℕ) (used : List ℕ) (members : List LiveMember)
    (index : ℕ) (sampling : SamplingParams) : M LiveMember := do
  let s ← get
  match (List.range s.nSlots).find? fun slot => !used.contains slot with
  | none => throw (.panic .noFreeSlot)
  | some slot =>
    let requestId := s.nextRequestId
    let taken := s.liveMembers.map LiveMember.requestId ++ members.map LiveMember.requestId
    match searchId taken requestId i32Max (nextId requestId) with
    | none => throw .noFreeId
    | some next =>
      modify fun s => { s with nextRequestId := next }
      pure {
        slot, requestId, index, sampling
        wantLogprob := queued.request.logprobs || 0 < queued.request.nTopLogprobs
        limit := min sampling.maxNewTokens (nCtxSeq - queued.request.prompt.length)
        reservedShare := 0, generated := 0, nextToken := 0, history := [], live := true
        nTopLogprobs := queued.request.nTopLogprobs
        unparseSpecial := queued.request.unparseSpecial
        detok := .new queued.request.stop
        events := some queued.stream, cancelled := queued.stream
        retention := if index = 0 then queued.request.retention else none }

/-- Places the completions of a group's requests in order. -/
def placeMembers (nCtxSeq : ℕ) :
    List (Queued × ℕ × SamplingParams) → List ℕ → List LiveMember → M (List LiveMember)
  | [], _, members => pure members
  | (queued, index, sampling) :: rest, used, members => do
    let member ← placeMember queued nCtxSeq used members index sampling
    placeMembers nCtxSeq rest (member.slot :: used) (members ++ [member])

/-- The completions of a group's requests, each with its request and its index in it. -/
def completions (group : List Queued) : List (Queued × ℕ × SamplingParams) :=
  group.flatMap fun queued =>
    queued.request.sampling.zipIdx.map fun (sampling, index) => (queued, index, sampling)

/-- Lockstep order: the members sorted by their parameters, over the same slots in order. -/
def sortMembers (members : List LiveMember) : List LiveMember :=
  let slots := sortBy compare (members.map LiveMember.slot)
  let sorted := sortBy (fun a b => samplingCmp a.sampling b.sampling) members
  (sorted.zip slots).map fun (member, slot) => { member with slot }

/-- A group as it is admitted: every member reserves its own cells net of the hit, and the leader
prefills from the hit on. -/
def newGroup (prompt : List Token) (adapter : RowAdapter) (prefixEnd cacheHit : ℕ)
    (members : List LiveMember) : LiveGroup :=
  let members := members.map fun member =>
    { member with reservedShare := prompt.length - cacheHit + member.limit }
  { prompt, adapter, prefixEnd, leader := 0
    reserved := (members.map LiveMember.reservedShare).sum
    cacheHit, members, phase := .prefill (min cacheHit prefixEnd) }

/-- Places one group, one request or a merged run of identical prompts, into free slots and
reserves its cells. -/
def admitGroup (group : List Queued) (nCtxSeq : ℕ) : M Unit := do
  match group.head? with
  | none => throw (.panic .noFront)
  | some first =>
    let s ← get
    let prompt := first.request.prompt
    let adapter := rowAdapter s first.request
    let count := (group.map fun queued => queued.request.n).sum
    let prefixEnd := if 1 < count then prompt.length - 1 else prompt.length
    let used := usedSlots s
    let members ← placeMembers nCtxSeq (completions group) used []
    let members := if s.options.mode = .lockstep then sortMembers members else members
    match members.head? with
    | none => throw (.panic .noMember)
    | some leader =>
      let cacheHit ← applyCacheHit w (adapterNamespace adapter) prompt leader.slot
      let prefillFrom := min cacheHit prefixEnd
      modify fun s => { s with
        kvStats := { s.kvStats with
          hits := s.kvStats.hits + if 0 < cacheHit then 1 else 0
          misses := s.kvStats.misses + if 0 < cacheHit then 0 else 1
          promptCells := s.kvStats.promptCells + prompt.length
          prefilledCells := s.kvStats.prefilledCells + (prefixEnd - prefillFrom) }
        live := s.live ++ [newGroup prompt adapter prefixEnd cacheHit members]
        inHand := s.inHand.filter fun queued => !group.contains queued }

/-! ### The two admission modes -/

/-- Takes the front of the queue in hand. -/
def popFront : M Queued := do
  let s ← get
  match s.queue with
  | [] => throw (.panic .noFront)
  | queued :: queue =>
    set { s with queue, inHand := s.inHand ++ [queued] }
    pure queued

/-- Selects the oldest fitting wave, pinning the node each request hits. -/
def selectWave (nCtxSeq : ℕ) :
    ℕ → ℕ → ℕ → ℕ → List Queued → List PinId → M (List Queued × List PinId)
  | 0, _, _, _, _, _ => throw .outOfFuel
  | fuel + 1, heldSlots, heldCells, evictionsLeft, pending, pins => do
    let fuelled := frontFuel (← get) evictionsLeft
    match ← frontFits w nCtxSeq heldSlots heldCells fuelled evictionsLeft with
    | (none, _) => pure (pending, pins)
    | (some (members, need, node), evictionsLeft) =>
      let pins ← match node with
        | none => pure pins
        | some node => do
          let pin ← modifyGet fun s =>
            ((s.kv.pinNode node).2, { s with kv := (s.kv.pinNode node).1 })
          pure (pins ++ [pin])
      let queued ← popFront
      selectWave nCtxSeq fuel (heldSlots + members) (heldCells + need) evictionsLeft
        (pending ++ [queued]) pins

/-- Whether a pending request joins the run of `first`. -/
def sameRun (first queued : Queued) : Bool :=
  queued.request.prompt = first.request.prompt && queued.request.adapter = first.request.adapter

/-- Admits a sorted wave, one group for each run of identical prompts. -/
def admitRuns (nCtxSeq : ℕ) : ℕ → List Queued → M Unit
  | _, [] => pure ()
  | 0, _ :: _ => throw .outOfFuel
  | fuel + 1, first :: pending => do
    admitGroup w (first :: pending.takeWhile (sameRun first)) nCtxSeq
    admitRuns nCtxSeq fuel (pending.dropWhile (sameRun first))

/-- Admits a wave; its pins are released whether it succeeds or not. -/
def admitWave (nCtxSeq : ℕ) : M Unit := do
  let s ← get
  if !s.live.isEmpty then pure ()
  else
    let (pending, pins) ← selectWave w nCtxSeq (s.queue.length + 1) 0 0 (s.nSlots + 1) [] []
    let pending := sortBy (fun a b => canonicalCmp a.request b.request) pending
    let admitted ← settle (admitRuns w nCtxSeq pending.length pending)
    pins.forM fun pin => do
      let _ ← unpin pin
    match admitted with
    | .ok () => pure ()
    | .error stop => throw stop

/-- Admits the front of the queue as long as it fits. -/
def admitContinuous (nCtxSeq : ℕ) : ℕ → ℕ → M Unit
  | 0, _ => throw .outOfFuel
  | fuel + 1, evictionsLeft => do
    let fuelled := frontFuel (← get) evictionsLeft
    match ← frontFits w nCtxSeq 0 0 fuelled evictionsLeft with
    | (none, _) => pure ()
    | (some _, evictionsLeft) =>
      let queued ← popFront
      admitGroup w [queued] nCtxSeq
      admitContinuous nCtxSeq fuel evictionsLeft

/-- Admits from the queue, which holds only requests for the active adapter. -/
def admitCandidates (nCtxSeq : ℕ) : M Unit := do
  let s ← get
  match s.options.mode with
  | .lockstep => admitWave w nCtxSeq
  | .continuous => admitContinuous w nCtxSeq (s.queue.length + 1) (s.nSlots + 1)

/-! ### The admission pass -/

/-- Drops least recently used swapped nodes while the snapshots exceed the byte budget. -/
def trimSnapshots : ℕ → M Unit
  | 0 => throw .outOfFuel
  | fuel + 1 => do
    let s ← get
    if s.options.maxSnapshotBytes < s.kv.snapshotBytes then
      match s.kv.snapshotEvictionCandidate with
      | none => pure ()
      | some node =>
        onTree fun kv => (kv.remove node).map (·, ())
        modify fun s => { s with
          kvStats := { s.kvStats with evictions := s.kvStats.evictions + 1 } }
        trimSnapshots fuel
    else pure ()

/-- Refuses the queued requests for which `refusal` has an answer; returns the others. -/
def refuseQueued (refusal : Queued → Option InferError) : List Queued → M (List Queued)
  | [] => pure []
  | queued :: rest => do
    match refusal queued with
    | some error =>
      trySend queued.stream (.error error)
      refuseQueued refusal rest
    | none => return queued :: (← refuseQueued refusal rest)

/-- The refusal of a request for an adapter that was unloaded. -/
def unloadedRefusal (s : Scheduler) (queued : Queued) : Option InferError :=
  queued.request.adapter.bind fun name =>
    if s.unloadedAdapters.contains name then
      some (.invalidArgument s!"no adapter is loaded under '{name}'")
    else none

/-- The serialized adapter this pass admits for: the front of the queue chooses it when nothing
is live, and it is the active one otherwise. -/
def targetAdapter (s : Scheduler) : Option String :=
  if s.live.isEmpty then s.queue.head?.bind fun queued => serialAdapter s queued.request
  else s.activeAdapter

/-- The candidates of a pass and the rest of the queue, each in order. -/
def partitionQueue (s : Scheduler) (target : Option String) : List Queued × List Queued :=
  s.queue.partition fun queued => serialAdapter s queued.request = target

/-- Admits the requests for `target`, refusing them when it cannot be activated; the others
stay queued, ahead of the candidates that were not admitted. -/
def admitTarget (nCtxSeq : ℕ) (target : Option String) : M Unit := do
  let s ← get
  let (candidates, rest) := partitionQueue s target
  let switched ← if s.live.isEmpty then settle (ensureAdapter w target) else pure (.ok ())
  match switched with
  | .error (.error error) =>
    candidates.forM fun queued => trySend queued.stream (.error error.clone)
    modify fun s => { s with queue := rest }
  | .error stop => throw stop
  | .ok () =>
    modify fun s => { s with queue := candidates }
    let admitted ← settle (admitCandidates w nCtxSeq)
    modify fun s => { s with queue := rest ++ s.queue }
    match admitted with
    | .ok () => pure ()
    | .error stop => throw stop

/-- Admits queued requests according to the mode. -/
def admitPass : M Unit := do
  modify fun s => { s with inHand := [] }
  if (← get).queue.isEmpty then pure ()
  else
    refreshKey w
    releaseExpiredRetained w
    trimSnapshots ((← get).kv.len + 1)
    let nCtxSeq ← query w w.nCtxSeq
    let vocab ← query w w.vocab
    let memory ← memory w
    modify fun s => { s with nSlots := memory.nSlots }
    let queue ← refuseQueued (fun queued =>
      (impossible queued.request nCtxSeq memory.nSlots vocab memory.cellsTotal).map
        InferError.invalidArgument) (← get).queue
    modify fun s => { s with queue }
    if queue.isEmpty then pure ()
    else
      let queue ← refuseQueued (unloadedRefusal (← get)) queue
      modify fun s => { s with queue }
      if queue.isEmpty then pure ()
      else admitTarget w nCtxSeq (targetAdapter (← get))

end

end Retrograd.Infer
