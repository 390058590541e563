import Retrograd.Infer.State

/-!
# Slots, pins and adapters

The bookkeeping of the scheduler around its prefix tree: the tree is dropped when the backend's
cache key moves, finished sequences are retained under a caller's key by a pin, and a per-row
adapter that nothing decodes under any more is freed with its namespace.
-/

namespace Retrograd.Infer

open Logic

/-- The prefix-tree namespace of an adapter. -/
def adapterNamespace : RowAdapter → Namespace
  | .loaded id => id
  | .context => 0
  | .base => 2 ^ 64 - 1

/-- `Vec::swap_remove`: the last element takes the removed one's place. -/
def swapRemove {α : Type} (l : List α) (i : ℕ) : List α :=
  match l.getLast? with
  | none => []
  | some last => (l.set i last).dropLast

section

variable (w : World)

/-! ### Backend calls -/

def seqRm (slot : ℕ) : M Unit := invoke w (Backend.seqRm w slot)

def seqCp (src dst : ℕ) (upTo : Option ℕ) : M Unit := invoke w (Backend.seqCp w src dst upTo)

def memory : M EngineMemory := invoke w (Backend.memory w)

/-- The backend's active adapter. -/
def backendAdapter : M (Option String) := invoke w fun b => (.ok b.activeAdapter, b)

/-- The default cache key: five queries folded together. -/
def cacheKey : M KvCacheKey := do
  query w ()
  query w ()
  let _ ← memory w
  query w ()
  query w ()
  return (← get).backend.cacheKey w

/-! ### Adapters -/

/-- How a request's adapter decodes: per row when its name is a per-row adapter. -/
def rowAdapter (s : Scheduler) (request : Request) : RowAdapter :=
  match request.adapter.bind s.rowAdapters.get with
  | some id => .loaded id
  | none => .context

/-- The serialized adapter a request needs active on the backend. -/
def serialAdapter (s : Scheduler) (request : Request) : Option String :=
  request.adapter.filter fun name => (s.rowAdapters.get name).isNone

/-- Frees the retiring adapters from `index` on that no live group decodes under. -/
def releaseRetiredFrom : ℕ → ℕ → M Unit
  | 0, _ => throw .outOfFuel
  | fuel + 1, index => do
    let s ← get
    match s.retiring[index]? with
    | none => pure ()
    | some id =>
      if s.live.any fun group => group.adapter = .loaded id then
        releaseRetiredFrom fuel (index + 1)
      else
        let slots ← onTree fun kv => kv.dropNamespace (adapterNamespace (.loaded id))
        slots.forM (seqRm w)
        invoke w (Backend.unloadRowAdapter id)
        modify fun s => { s with retiring := swapRemove s.retiring index }
        releaseRetiredFrom fuel index

/-- Frees the retiring per-row adapters no live group decodes under: their prefix namespace,
then the adapter. -/
def releaseRetired : M Unit := do
  releaseRetiredFrom w ((← get).retiring.length + 1) 0

/-- Retires a superseded per-row adapter. -/
def retire (old : Option ℕ) : M Unit :=
  match old with
  | none => pure ()
  | some id => do
    modify fun s => { s with retiring := s.retiring ++ [id] }
    releaseRetired w

/-- Registers an adapter: per row when the backend can, serialized otherwise. -/
def loadAdapter (name : String) : M Unit := do
  if name = "" then throw (.error (.invalidArgument "an adapter name must not be empty"))
  else
    let id ← if w.supportsRowAdapters then attempt (invoke w (Backend.loadRowAdapter w))
      else pure none
    match id with
    | some id =>
      let old := (← get).rowAdapters.get name
      modify fun s => { s with
        unloadedAdapters := s.unloadedAdapters.filter (· ≠ name)
        rowAdapters := s.rowAdapters.insert name id }
      retire w old
    | none =>
      invoke w (Backend.loadAdapter name)
      let old := (← get).rowAdapters.get name
      modify fun s => { s with
        unloadedAdapters := s.unloadedAdapters.filter (· ≠ name)
        rowAdapters := s.rowAdapters.erase name }
      retire w old

/-- Unloads a per-row adapter: live requests run to completion under it. -/
def unloadAdapter (name : String) : M Unit := do
  match (← get).rowAdapters.get name with
  | none =>
    throw (.error (.invalidArgument s!"no per-row adapter is loaded under '{name}'"))
  | some id =>
    modify fun s => { s with
      rowAdapters := s.rowAdapters.erase name
      unloadedAdapters := name :: s.unloadedAdapters
      retiring := s.retiring ++ [id] }
    releaseRetired w

/-! ### The cache key -/

/-- Drops the whole prefix tree when the backend's cache key changed. -/
def refreshKey : M Unit := do
  let key ← cacheKey w
  let s ← get
  if s.kvKey ≠ some key then
    set { s with kv := s.kv.clear.1 }
    s.kv.clear.2.forM (seqRm w)
    modify fun s => { s with retained := ∅, kvKey := some key }

/-- Makes `wanted` the backend's active adapter when it is not already. -/
def ensureAdapter (wanted : Option String) : M Unit := do
  let current ← backendAdapter w
  if current ≠ wanted then
    invoke w (Backend.activateAdapter wanted)
    modify fun s => { s with activeAdapter := wanted }
    refreshKey w

/-! ### Pins and retentions -/

/-- Pins the tree node at exactly `tokens`. -/
def pinPrefix (tokens : List Token) : M PinId := do
  refreshKey w
  match (← get).kv.findExact 0 tokens with
  | none => throw .outOfFuel
  | some none =>
    throw (.error (.invalidArgument "no resident prefix node at exactly that token path"))
  | some (some node) => modifyGet fun s =>
    ((s.kv.pinNode node).2, { s with kv := (s.kv.pinNode node).1 })

/-- Releases one pin. -/
def unpin (id : PinId) : M Bool := modifyGet fun s =>
  ((s.kv.unpin id).2, { s with kv := (s.kv.unpin id).1 })

/-- Releases the retention named `key`; false when there is none or its pin is stale. -/
def releaseRetained (key : String) : M Bool := do
  match (← get).retained.get key with
  | some retained =>
    modify fun s => { s with retained := s.retained.erase key }
    unpin retained.pin
  | none => pure false

/-- The key of the oldest retention. -/
def oldestRetained (s : Scheduler) : Option String :=
  (s.retained.entries.argmin fun e => e.2.since).map Sigma.fst

/-- Releases the oldest retention. -/
def releaseOldestRetained : M Bool := do
  match oldestRetained (← get) with
  | some key => releaseRetained key
  | none => pure false

/-- How many retentions the pool allows. -/
def retainCap (s : Scheduler) : ℕ := min s.options.maxRetained (s.nSlots / 4)

/-- Releases the oldest retentions until there is room for one more, or a release fails. -/
def makeRoom (cap : ℕ) : ℕ → M Unit
  | 0 => throw .outOfFuel
  | fuel + 1 => do
    if cap ≤ (← get).retained.size then
      if ← releaseOldestRetained then makeRoom cap fuel
    else pure ()

/-- Lets go an earlier retention of the same key. -/
def forgetRetained (key : String) : M Unit := do
  match (← get).retained.get key with
  | some old =>
    modify fun s => { s with retained := s.retained.erase key }
    let _ ← unpin old.pin
  | none => pure ()

/-- Pins `node` under `key`, releasing the oldest retentions past the cap. -/
def pinRetained (key : String) (node : ℕ) : M Unit := do
  let cap := retainCap (← get)
  if cap = 0 then pure ()
  else
    makeRoom cap ((← get).retained.size + 1)
    let pin ← modifyGet fun s =>
      ((s.kv.pinNode node).2, { s with kv := (s.kv.pinNode node).1 })
    let since ← now w
    modify fun s => { s with retained := s.retained.insert key ⟨pin, since⟩ }

/-- Pins `node` under `key`, replacing an earlier retention of the same key. -/
def retain (key : String) (node : ℕ) : M Unit := do
  forgetRetained key
  pinRetained w key node

/-- Releases one retention if it is older than the TTL. -/
def expireRetained (entry : Σ _ : String, Retained) : M Unit := do
  let time ← now w
  let s ← get
  if s.options.retainTtl ≤ time - entry.2.since then
    set { s with kv := (s.kv.unpin entry.2.pin).1, retained := s.retained.erase entry.1 }

/-- Releases the retentions older than the TTL. -/
def releaseExpiredRetained : M Unit := do
  (← get).retained.entries.forM (expireRetained w)

end

end Retrograd.Infer
