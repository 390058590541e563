import Retrograd.Logic.Lines
import Retrograd.Logic.Map
import Retrograd.Logic.Json
import Retrograd.Logic.Floats

/-!
# Reading an export back

`observe.jsonl` is a log of **batches** of records, a record a line. The index over it keeps
offsets and summaries and follows the file as it grows: `refresh` reads on from the end of the
last batch taken in, so a batch counts only once all of its lines are there, and one broken off
by a newer batch is dropped.

What a line parses to is a parameter (`Format`), as is the JSON of a record's parameters.
-/

namespace Retrograd.Observe

open Logic

/-- `SCHEMA_VERSION`. -/
def schemaVersion : UInt32 := 1

/-- Where a record is in the file. -/
structure LineRef where
  offset : ℕ
  len : ℕ
  deriving DecidableEq

/-- What reading an export can fail with: a record of another schema version. -/
inductive ReadError where
  | version (offset : ℕ) (version : UInt32)
  deriving DecidableEq

/-! ### Records -/

/-- The shape of a message, for counting. -/
structure MessageShape where
  role : String
  toolCalls : ℕ
  isError : Bool

/-- An entry of a `selection` or an `outcome` record. -/
structure EntryLine where
  group : Option ℕ
  member : ℕ
  advantage : Option Float32
  eligible : Option Bool
  skipReason : Option String
  trained : Option Bool

/-- Everything a record may carry that the index keeps. -/
structure IndexLine where
  v : UInt32
  kind : String
  segment : UInt32
  batchId : UInt64
  batchIndex : ℕ
  batchLen : ℕ
  time : Option String := none
  algorithm : Option String := none
  model : Option String := none
  resumedFromUpdate : Option UInt32 := none
  every : Option UInt32 := none
  params : Option (List (String × Json)) := none
  key : Option String := none
  update : Option UInt32 := none
  group : Option ℕ := none
  member : Option ℕ := none
  prompt : Option String := none
  seed : Option UInt64 := none
  tokens : Option ℕ := none
  truncated : Option Bool := none
  reward : Option Float32 := none
  rewardRaw : Option Float32 := none
  judgeTerm : Option Float32 := none
  judgeVerdict : Option Float32 := none
  advantage : Option Float32 := none
  advantageMin : Option Float32 := none
  advantageMax : Option Float32 := none
  eligible : Option Bool := none
  trained : Option Bool := none
  skipReason : Option String := none
  messages : Option (List MessageShape) := none
  entries : Option (List EntryLine) := none
  status : Option String := none
  metrics : Option (List (String × Option Float32)) := none

/-- How the bytes of a line are read: as a record, or as anything that has a version. -/
structure Format where
  record : List UInt8 → Option IndexLine
  version : List UInt8 → Option UInt32

/-! ### The index -/

/-- A `run` record: one per segment. -/
structure RunHeader where
  segment : UInt32
  algorithm : String
  model : String
  resumedFromUpdate : Option UInt32
  every : Option UInt32
  params : List (String × Json)
  time : Option String

/-- One rollout without its text. -/
structure MemberEntry where
  group : Option ℕ
  member : ℕ
  prompt : String
  seed : UInt64
  tokens : ℕ
  truncated : Bool
  reward : Option Float32
  rewardRaw : Option Float32
  judgeTerm : Option Float32
  judgeVerdict : Option Float32
  advantage : Option Float32
  advantageMin : Option Float32
  advantageMax : Option Float32
  eligible : Option Bool
  trained : Option Bool
  skipReason : Option String
  turns : ℕ
  toolCalls : ℕ
  toolErrors : ℕ

abbrev MemberKey := Option ℕ × ℕ

structure UpdateIndex where
  rollouts : Map MemberKey (MemberEntry × LineRef) := ∅
  selection : Map MemberKey EntryLine := ∅
  outcome : Map MemberKey Bool := ∅
  status : Option String := none
  time : Option String := none
  metrics : Map String Float32 := ∅

/-- A segment still in view, and the last update of it that is. -/
structure Active where
  segment : UInt32
  upto : UInt32

/-- An index over one `observe.jsonl`. -/
structure ObserveIndex where
  /-- End of the last batch taken in; everything before it is indexed. -/
  committed : ℕ := 0
  runs : List RunHeader := []
  active : List Active := []
  updates : Map (UInt32 × UInt32) UpdateIndex := ∅
  prompts : Map (UInt32 × String) LineRef := ∅
  /-- Batches dropped because they were broken off, and lines that were not records at all. -/
  skipped : ℕ := 0

/-- Changes the entry of an update, begun when there is none. -/
def ObserveIndex.withUpdate (index : ObserveIndex) (key : UInt32 × UInt32)
    (change : UpdateIndex → UpdateIndex) : ObserveIndex :=
  { index with updates := index.updates.insert key (change ((index.updates.get key).getD {})) }

/-- One more thing that could not be taken in. -/
def ObserveIndex.skip (index : ObserveIndex) : ObserveIndex :=
  { index with skipped := index.skipped + 1 }

/-- A `run` record: without an update it resumes from it starts over, with one it supersedes
the earlier segments from there on. -/
def ObserveIndex.ingestRun (index : ObserveIndex) (record : IndexLine) : ObserveIndex :=
  let active := match record.resumedFromUpdate with
    | none => []
    | some resumed => index.active.map fun active =>
      { active with upto := min active.upto resumed }
  { index with
    active := active ++ [{ segment := record.segment, upto := 0xffffffff }]
    runs := index.runs ++ [{
      segment := record.segment
      algorithm := record.algorithm.getD ""
      model := record.model.getD ""
      resumedFromUpdate := record.resumedFromUpdate
      every := record.every
      params := record.params.getD []
      time := record.time }] }

/-- The entry of a rollout record. -/
def memberEntry (record : IndexLine) (member : ℕ) : MemberEntry :=
  let messages := record.messages.getD []
  { group := record.group
    member
    prompt := record.prompt.getD ""
    seed := record.seed.getD 0
    tokens := record.tokens.getD 0
    truncated := record.truncated.getD false
    reward := record.reward
    rewardRaw := record.rewardRaw
    judgeTerm := record.judgeTerm
    judgeVerdict := record.judgeVerdict
    advantage := record.advantage
    advantageMin := record.advantageMin
    advantageMax := record.advantageMax
    eligible := record.eligible
    trained := record.trained
    skipReason := record.skipReason
    turns := messages.countP fun message => message.role = "assistant"
    toolCalls := (messages.map MessageShape.toolCalls).sum
    toolErrors := messages.countP fun message => message.role = "tool" && message.isError }

/-- An entry of a `selection` or an `outcome` record, written into its update. -/
def UpdateIndex.note (index : UpdateIndex) (selection : Bool) (entry : EntryLine) :
    UpdateIndex :=
  let key := (entry.group, entry.member)
  if selection then { index with selection := index.selection.insert key entry }
  else match entry.trained with
    | some trained => { index with outcome := index.outcome.insert key trained }
    | none => index

/-- The scalars an update record publishes. Non-finite values are left out. -/
def finiteMetrics (metrics : List (String × Option Float32)) : Map String Float32 :=
  metrics.foldl (fun kept (name, value) =>
    match value with
    | some value => if value.isFinite then kept.insert name value else kept
    | none => kept) ∅

/-- Takes one record in. -/
def ObserveIndex.ingest (index : ObserveIndex) (record : IndexLine) (line : LineRef) :
    ObserveIndex :=
  if record.kind = "run" then index.ingestRun record
  else if record.kind = "prompt" then
    match record.key with
    | some key => { index with prompts := index.prompts.insert (record.segment, key) line }
    | none => index
  else if record.kind = "rollout" then
    match record.update, record.member with
    | some update, some member =>
      index.withUpdate (record.segment, update) fun entry =>
        { entry with
          rollouts := entry.rollouts.insert (record.group, member)
            (memberEntry record member, line) }
    | _, _ => index.skip
  else if record.kind = "selection" ∨ record.kind = "outcome" then
    match record.update with
    | some update =>
      index.withUpdate (record.segment, update) fun entry =>
        (record.entries.getD []).foldl
          (fun entry line => entry.note (record.kind = "selection") line) entry
    | none => index.skip
  else if record.kind = "update" then
    match record.update with
    | some update =>
      index.withUpdate (record.segment, update) fun entry =>
        { entry with
          status := record.status
          time := record.time
          metrics := finiteMetrics (record.metrics.getD []) }
    | none => index.skip
  -- a newer writer's addition within the same version
  else index

/-- Takes the records of a batch in. -/
def ObserveIndex.ingestAll (index : ObserveIndex) (batch : List (IndexLine × LineRef)) :
    ObserveIndex :=
  batch.foldl (fun index entry => index.ingest entry.1 entry.2) index

/-! ### Following the file -/

/-- A pass over the file: the index, the batch not finished yet, and how far it has come. -/
structure Scan where
  index : ObserveIndex
  unfinished : List (IndexLine × LineRef)
  position : ℕ

/-- Goes past a line; everything up to it is done with when no batch is open. -/
def Scan.pass (scan : Scan) (position : ℕ) : Scan :=
  { scan with
    position
    index :=
      if scan.unfinished.isEmpty then { scan.index with committed := position }
      else scan.index }

/-- Whether a record is the next one of the batch that is open. -/
def continues (unfinished : List (IndexLine × LineRef)) (record : IndexLine) : Bool :=
  match unfinished with
  | [] => false
  | (first, _) :: _ =>
    first.segment = record.segment && first.batchId = record.batchId &&
      first.batchLen = record.batchLen && record.batchIndex = unfinished.length

/-- Adds a record to the open batch, which is taken in once it is complete. -/
def Scan.push (scan : Scan) (record : IndexLine) (line : LineRef) (position : ℕ) : Scan :=
  let unfinished := scan.unfinished ++ [(record, line)]
  if record.batchLen = scan.unfinished.length + 1 then
    { index := { scan.index.ingestAll unfinished with committed := position }
      unfinished := []
      position }
  else { scan with unfinished, position }

/-- A record of this schema version. -/
def Scan.record (scan : Scan) (record : IndexLine) (line : LineRef) (position : ℕ) : Scan :=
  if continues scan.unfinished record then scan.push record line position
  else
    -- a batch broken off by a newer one: never finished, never read
    let index := if scan.unfinished.isEmpty then scan.index else scan.index.skip
    if record.batchIndex ≠ 0 ∨ record.batchLen = 0 then
      { index := { index.skip with committed := position }, unfinished := [], position }
    else { scan with index, unfinished := [] }.push record line position

/-- `u8::is_ascii_whitespace`. -/
def isAsciiWhitespace (b : UInt8) : Bool :=
  b = 0x20 || b = 0x09 || b = 0x0a || b = 0x0c || b = 0x0d

/-- What a line is to the reader. -/
inductive Mark where
  | blank
  | record (record : IndexLine)
  /-- No record at all. -/
  | garbage
  /-- Of another schema version. -/
  | foreign (version : UInt32)

def Format.mark (format : Format) (text : List UInt8) : Mark :=
  if text.all isAsciiWhitespace then .blank
  else match format.record text with
    | some record => if record.v = schemaVersion then .record record else .foreign record.v
    | none =>
      match format.version text with
      | some version => if version = schemaVersion then .garbage else .foreign version
      | none => .garbage

/-- Reads one line. -/
def Scan.line (scan : Scan) (len : ℕ) (mark : Mark) : Except ReadError Scan :=
  let line : LineRef := { offset := scan.position, len }
  let position := scan.position + len + 1
  match mark with
  | .blank => .ok (scan.pass position)
  | .record record => .ok (scan.record record line position)
  | .garbage => .ok ({ scan with index := scan.index.skip }.pass position)
  | .foreign version => .error (.version line.offset version)

/-- Reads lines until one that is refused; the index keeps what came before it. -/
def Scan.lines (format : Format) (scan : Scan) :
    List (List UInt8) → ObserveIndex × Except ReadError Unit
  | [] => (scan.index, .ok ())
  | text :: rest =>
    match scan.line text.length (format.mark text) with
    | .ok scan => scan.lines format rest
    | .error error => (scan.index, .error error)

/-- `'\n'`. -/
def newline : UInt8 := 0x0a

/-- Reads what was appended since the last call. A file shorter than what was already indexed
was rewritten, and is indexed again from the start. -/
def ObserveIndex.refresh (format : Format) (index : ObserveIndex) (file : List UInt8) :
    ObserveIndex × Except ReadError Unit :=
  let index := if file.length < index.committed then {} else index
  if file.length = index.committed then (index, .ok ())
  else
    let scan : Scan := { index, unfinished := [], position := index.committed }
    scan.lines format (Logic.lines newline (file.drop index.committed))

/-- An index over a file, read up to its current end. -/
def openLog (format : Format) (file : List UInt8) : ObserveIndex × Except ReadError Unit :=
  ({} : ObserveIndex).refresh format file

/-! ### What a listing shows -/

/-- One update, as a listing shows it. -/
structure UpdateEntry where
  segment : UInt32
  update : UInt32
  status : Option String
  time : Option String
  metrics : Map String Float32
  groups : ℕ
  rollouts : ℕ
  trained : ℕ
  rewardMean : Option Float32
  rewardMin : Option Float32
  rewardMax : Option Float32

/-- A rollout as the optimizer finally saw it. -/
def effective (index : UpdateIndex) (entry : MemberEntry) : MemberEntry :=
  let key := (entry.group, entry.member)
  let selection := index.selection.get key
  let eligible := (selection.bind EntryLine.eligible) <|> entry.eligible
  let trained := match index.outcome.get key with
    | some trained => some trained
    | none => if entry.trained = some false ∨ eligible = some false then some false else none
  { entry with
    eligible
    trained
    advantage := entry.advantage <|> selection.bind EntryLine.advantage
    skipReason := entry.skipReason <|> selection.bind EntryLine.skipReason }

/-- The order of member keys: no group comes first. -/
def memberLe (a b : MemberKey) : Bool :=
  match a.1, b.1 with
  | none, none => a.2 ≤ b.2
  | none, some _ => true
  | some _, none => false
  | some g, some h => g < h || (g = h && a.2 ≤ b.2)

/-- The rollouts of an update in the order of their keys. -/
def UpdateIndex.members (index : UpdateIndex) : List MemberEntry :=
  (index.rollouts.entries.mergeSort fun a b => memberLe a.1 b.1).map fun entry => entry.2.1

def reduce (op : Float32 → Float32 → Float32) : List Float32 → Option Float32
  | [] => none
  | first :: rest => some (rest.foldl op first)

def summarize (segment update : UInt32) (index : UpdateIndex) : UpdateEntry :=
  let members := index.members.map (effective index)
  let rewards := (members.filterMap MemberEntry.reward).filter Float32.isFinite
  { segment
    update
    status := index.status
    time := index.time
    metrics := index.metrics
    groups := ((members.map MemberEntry.group).destutter (· ≠ ·)).length
    rollouts := members.length
    trained := members.countP fun member => member.trained = some true
    rewardMean :=
      if rewards.isEmpty then none else some (rewards.foldl (· + ·) 0 / f32OfNat rewards.length)
    rewardMin := reduce min rewards
    rewardMax := reduce max rewards }

def ObserveIndex.visible (index : ObserveIndex) (segment update : UInt32) : Bool :=
  index.active.any fun active => active.segment = segment && update ≤ active.upto

/-- Every update still in view, by update number. -/
def ObserveIndex.listing (index : ObserveIndex) : List UpdateEntry :=
  let shown := index.updates.entries.filter fun entry => index.visible entry.1.1 entry.1.2
  let ordered := shown.mergeSort fun a b =>
    a.1.2 < b.1.2 || (a.1.2 = b.1.2 && a.1.1 ≤ b.1.1)
  ordered.map fun entry => summarize entry.1.1 entry.1.2 entry.2

end Retrograd.Observe
