import Retrograd.Infer.Kv

/-!
# The decode backend

The contract of a decode backend over its slots: after a successful step every input token is
resident, a copy shares or duplicates the resident cells, a restored snapshot takes fresh cells,
and activating an adapter empties every slot and bumps the weights version.

What the backend is free to choose — which calls fail, what is sampled, how much a failed step
left resident, how time passes — is a `World`: one answer for every call of a run, fixed in
advance, so that a theorem about every world is a theorem about every behaviour.
-/

namespace Retrograd.Infer

open Logic

/-- What one row of a step produced. -/
structure StepOutRow where
  token : Token
  logprob : F32
  forced : Bool
  sampled : Bool
  sampledLogprob : F32
  top : List (Token × F32)
  deriving DecidableEq, Repr

/-- Everything about a run that neither the scheduler nor its caller decides. An index is the
number of backend calls, client waits or clock reads that came before. -/
structure World where
  nSlots : ℕ
  nCtxSeq : ℕ
  vocab : ℕ
  cellsTotal : ℕ
  kvUnified : Bool
  hybrid : Bool
  fingerprint : ℕ
  /-- Whether the backend selects adapters per step row. -/
  supportsRowAdapters : Bool
  isEog : Token → Bool
  /-- The raw bytes of a token, special tokens rendered as text or not. -/
  piece : Token → Bool → Bytes
  /-- The error a call returns before it does anything. -/
  fault : ℕ → Option InferError
  /-- Whether reading the span of a slot fails where the caller takes it as unusable. -/
  spanFault : ℕ → ℕ → Bool
  /-- How many tokens a failing step made resident, and its error. -/
  stepFault : ℕ → Option (ℕ × InferError)
  /-- What a step produced for each row. -/
  produced : ℕ → ℕ → StepOutRow
  /-- The size of the snapshot of a sequence. -/
  saveLen : List (Token × Tag) → ℕ
  /-- Whether the per-row path accepts the checkpoint a call loads. -/
  acceptsRow : ℕ → Bool
  /-- How long the clock advances before a read. -/
  elapse : ℕ → ℕ
  /-- How many events a client takes from its full stream before the bounded wait ends. -/
  clientReads : ℕ → ℕ

/-- No call but `step` fails. -/
structure World.Reliable (w : World) : Prop where
  fault : ∀ n, w.fault n = none
  spanFault : ∀ n slot, w.spanFault n slot = false

/-- The state of the backend. -/
structure Backend where
  /-- The resident positions of each slot, from position 0. -/
  slots : ℕ → List Cell
  /-- The next pool cell to hand out. -/
  nextCell : ℕ
  weightsVersion : ℕ
  activeAdapter : Option String
  /-- The serialized adapters registered by name. -/
  adapters : List String
  /-- The per-row adapters loaded, by id. -/
  rowAdapters : List ℕ
  nextRowAdapter : ℕ
  /-- Calls made so far. -/
  calls : ℕ

/-- Per-row adapter ids are positive, and the next one was never used. -/
structure Backend.Valid (b : Backend) : Prop where
  next_pos : 0 < b.nextRowAdapter
  lt_next : ∀ id ∈ b.rowAdapters, id < b.nextRowAdapter

/-- One row of a step. -/
structure StepRow where
  request : ℕ
  slot : ℕ
  tokens : List Token
  pos0 : ℕ
  sample : Bool
  sampling : SamplingParams
  nTopLogprobs : ℕ
  wantLogprob : Bool
  adapter : RowAdapter
  deriving DecidableEq, Repr

/-- The KV-pool occupancy report. -/
structure EngineMemory where
  nSlots : ℕ
  cellsTotal : ℕ
  cellsUsed : ℕ
  deriving DecidableEq, Repr

/-- The key every prefix entry is valid under. -/
structure KvCacheKey where
  fingerprint : ℕ
  weightsVersion : ℕ
  settings : UInt64
  deriving DecidableEq, Repr

/-- FNV-1a mix. -/
def mix (hash value : UInt64) : UInt64 := (hash ^^^ value) * 1099511628211

/-- The hash of the context settings a cache key folds together. -/
def World.settings (w : World) : UInt64 :=
  let settings := mix 0x9e3779b97f4a7c15 (UInt64.ofNat w.cellsTotal)
  let settings := mix settings (UInt64.ofNat w.nSlots)
  let settings := mix settings (if w.kvUnified then 1 else 0)
  mix settings (UInt64.ofNat w.nCtxSeq)

/-- What one call returns, and the backend it leaves. -/
abbrev Reply (α : Type) := Except InferError α × Backend

namespace Backend

/-- Stores the contents in fresh pool cells. -/
def freshCells (b : Backend) (contents : List (Token × Tag)) : List Cell :=
  contents.mapIdx fun i c => ⟨c.1, c.2, b.nextCell + i⟩

/-- Puts `cells` in a slot. -/
def setSlot (b : Backend) (slot : ℕ) (cells : List Cell) : Backend :=
  { b with slots := Function.update b.slots slot cells }

/-- The cells reported in use: the resident span of every slot. -/
def cellsUsed (w : World) (b : Backend) : ℕ :=
  ((List.range w.nSlots).map fun slot => (b.slots slot).length).sum

/-- The pool cells in use, a cell shared by several slots counted once. -/
def distinctCells (w : World) (b : Backend) : ℕ :=
  ((List.range w.nSlots).flatMap fun slot => (b.slots slot).map Cell.id).dedup.length

def memory (w : World) (b : Backend) : Reply EngineMemory :=
  (.ok ⟨w.nSlots, w.cellsTotal, b.cellsUsed w⟩, b)

def seqRm (w : World) (slot : ℕ) (b : Backend) : Reply Unit :=
  if w.nSlots ≤ slot then (.error (.invalidArgument "seq_rm slot out of range"), b)
  else (.ok (), b.setSlot slot [])

/-- Copies the first `upTo` positions of `src`, or all of them, into the empty slot `dst`. On a
unified pool the copy shares the cells, on a partitioned one it takes fresh cells and only
whole sequences can be copied. -/
def seqCp (w : World) (src dst : ℕ) (upTo : Option ℕ) (b : Backend) : Reply Unit :=
  if w.nSlots ≤ src || w.nSlots ≤ dst then
    (.error (.invalidArgument "seq_cp slot out of range"), b)
  else if upTo.isSome && !w.kvUnified then
    (.error (.invalidArgument
      "seq_cp: a partial range between streams of a partitioned pool is unsupported"), b)
  else if (b.slots src).isEmpty then
    (.error (.invalidArgument "seq_cp source slot is empty"), b)
  else if !(b.slots dst).isEmpty then
    (.error (.invalidArgument "seq_cp destination slot is not empty"), b)
  else
    let copied := match upTo with
      | some n => (b.slots src).take n
      | none => b.slots src
    if w.kvUnified then (.ok (), b.setSlot dst copied)
    else
      (.ok (), { b.setSlot dst (b.freshCells (contents copied)) with
        nextCell := b.nextCell + copied.length })

/-- The resident position range of a slot; both `-1` when empty. -/
def seqPos (w : World) (slot : ℕ) (b : Backend) : Reply (ℤ × ℤ) :=
  if w.nSlots ≤ slot then (.error (.invalidArgument "seq_pos slot out of range"), b)
  else if (b.slots slot).isEmpty then (.ok (-1, -1), b)
  else (.ok (0, ((b.slots slot).length : ℤ) - 1), b)

def seqSaveLen (w : World) (slot : ℕ) (b : Backend) : Reply ℕ :=
  if w.nSlots ≤ slot then (.error (.invalidArgument "seq_save slot out of range"), b)
  else (.ok (if (b.slots slot).isEmpty then 0 else w.saveLen (contents (b.slots slot))), b)

def seqSaveInto (w : World) (slot : ℕ) (b : Backend) : Reply Snapshot :=
  if w.nSlots ≤ slot then (.error (.invalidArgument "seq_save slot out of range"), b)
  else if (b.slots slot).isEmpty then (.error (.invalidArgument "seq_save slot is empty"), b)
  else (.ok ⟨w.saveLen (contents (b.slots slot)), contents (b.slots slot)⟩, b)

/-- Restores a snapshot into a slot, in fresh cells. -/
def seqLoad (w : World) (slot : ℕ) (snapshot : Snapshot) (b : Backend) : Reply Unit :=
  if w.nSlots ≤ slot then (.error (.invalidArgument "seq_load slot out of range"), b)
  else (.ok (), { b.setSlot slot (b.freshCells snapshot.contents) with
    nextCell := b.nextCell + snapshot.contents.length })

/-- Makes the tokens of one row resident. -/
def decodeRow (b : Backend) (row : StepRow) : Backend :=
  { b.setSlot row.slot
      (b.slots row.slot ++ b.freshCells (tagged (row.adapter.tag b.activeAdapter) row.tokens)) with
    nextCell := b.nextCell + row.tokens.length }

/-- Makes the first `n` tokens of a step resident. -/
def decodeRows (n : ℕ) : List StepRow → Backend → Backend
  | [], b => b
  | row :: rows, b =>
    decodeRows (n - row.tokens.length) rows (b.decodeRow { row with tokens := row.tokens.take n })

/-- The first reason a step refuses a row, if any. -/
def rowRefusal (w : World) (b : Backend) (row : StepRow) : Option String :=
  if (match row.adapter with
      | .loaded id => !b.rowAdapters.contains id
      | _ => false) then some "step row adapter is not a loaded per-row adapter"
  else if w.nSlots ≤ row.slot then some "step row slot out of range"
  else if row.tokens.isEmpty then some "a step row requires at least one token"
  else if w.nCtxSeq < row.pos0 + row.tokens.length then
    some "a step row decodes past the per-sequence context"
  else if row.pos0 ≠ (b.slots row.slot).length then
    some "a step row leaves a gap in its slot's resident span"
  else none

/-- The tokens of a step. -/
def stepTokens (rows : List StepRow) : ℕ := (rows.map fun row => row.tokens.length).sum

/-- One decode over `rows`. A failed step may have made a prefix of its tokens resident. -/
def step (w : World) (rows : List StepRow) (b : Backend) : Reply ℕ :=
  let total := stepTokens rows
  match rows.findSome? (b.rowRefusal w) with
  | some message => (.error (.invalidArgument message), b)
  | none =>
    if w.cellsTotal < b.distinctCells w + total then
      (.error (.backend "the KV pool is full"), b)
    else
      match w.stepFault b.calls with
      | some (n, error) => (.error error, decodeRows n rows b)
      | none => (.ok b.calls, decodeRows total rows b)

def cacheKey (w : World) (b : Backend) : KvCacheKey :=
  ⟨w.fingerprint, b.weightsVersion, w.settings⟩

/-- Registers a named adapter without applying it. -/
def loadAdapter (name : String) (b : Backend) : Reply Unit :=
  (.ok (), { b with adapters := name :: b.adapters })

/-- Applies a registered adapter, or the base model: every slot is emptied and the weights
version bumped. -/
def activateAdapter (name : Option String) (b : Backend) : Reply Unit :=
  if name.all b.adapters.contains then
    (.ok (), { b with
      activeAdapter := name, slots := fun _ => [], weightsVersion := b.weightsVersion + 1 })
  else (.error (.invalidArgument "no adapter registered under that name"), b)

/-- Loads a checkpoint as a per-row adapter under a fresh id, when the per-row path accepts
it. -/
def loadRowAdapter (w : World) (b : Backend) : Reply ℕ :=
  if w.acceptsRow b.calls then
    (.ok b.nextRowAdapter, { b with
      rowAdapters := b.nextRowAdapter :: b.rowAdapters, nextRowAdapter := b.nextRowAdapter + 1 })
  else (.error (.invalidArgument "the per-row path refuses this checkpoint"), b)

def unloadRowAdapter (id : ℕ) (b : Backend) : Reply Unit :=
  if b.rowAdapters.contains id then
    (.ok (), { b with rowAdapters := b.rowAdapters.erase id })
  else (.error (.invalidArgument "no such per-row adapter"), b)

end Backend

end Retrograd.Infer
