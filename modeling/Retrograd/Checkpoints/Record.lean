import Retrograd.Logic.Disk
import Retrograd.Logic.Text
import Mathlib.Algebra.Ring.Nat

/-!
# Checkpoints on disk

What a checkpoint is, how a directory is read back into one, and `Checkpoint::write`, which stages
a checkpoint in a temporary directory, moves the previous one aside and **publishes** the new one by
a rename. A reader that does not find the state directory reads the one moved aside.

The records are the fields their readers look at; the rest of each is carried as it is (`fields`).
The encoding is not this program's: a `Codec` is what it promises.
-/

namespace Retrograd.Checkpoints

open Logic

abbrev Bytes := List UInt8

inductive Error
  | checkpoint (message : String)
  /-- What the caller's payload writer failed with. -/
  | payload (message : String)
  deriving DecidableEq, Repr

def formatVersion : ℕ := 1

def manifestFile : String := "manifest.msgpack"
def progressFile : String := "progress.msgpack"
def schedulerFile : String := "scheduler.msgpack"
def optimizerFile : String := "optimizer.msgpack"
def rngFile : String := "rng.msgpack"
def datasetFile : String := "dataset.msgpack"
def optimizerStateFile : String := "optimizer-state.bin"

/-- The state files that must exist; the manifest is the marker, not a member. -/
def requiredFiles : List String := [progressFile, schedulerFile, optimizerFile, rngFile, datasetFile]

/-! ### Records -/

inductive ArtifactPolicy
  | required
  | recreatable
  deriving DecidableEq, Repr

/-- The trained base tensors, and how to check the file is the one the manifest describes. -/
structure TrainableBundle where
  file : String
  bytes : ℕ
  fingerprint : String
  fields : String
  deriving DecidableEq, Repr

structure Manifest where
  formatVersion : ℕ
  adapter : Option String
  trainable : Option TrainableBundle
  files : List String
  /-- By name, in order. -/
  artifacts : List (String × ArtifactPolicy)
  fields : String
  deriving DecidableEq, Repr

structure StateSlot where
  scope : String
  owner : String
  slot : String
  offset : ℕ
  nBytes : ℕ
  fields : String
  deriving DecidableEq, Repr

structure Optimizer where
  version : ℕ
  slots : List StateSlot
  stateBytes : ℕ
  fields : String
  deriving DecidableEq, Repr

structure Progress where
  version : ℕ
  fields : String
  deriving DecidableEq, Repr

structure Scheduler where
  version : ℕ
  fields : String
  deriving DecidableEq, Repr

structure Rng where
  version : ℕ
  fields : String
  deriving DecidableEq, Repr

structure Dataset where
  version : ℕ
  fields : String
  deriving DecidableEq, Repr

/-- Everything one checkpoint holds. -/
structure Checkpoint where
  manifest : Manifest
  progress : Progress
  scheduler : Scheduler
  optimizer : Optimizer
  rng : Rng
  dataset : Dataset
  /-- By name, in order. -/
  artifacts : List (String × Bytes)
  deriving DecidableEq, Repr

/-- An encoding: what was encoded decodes to itself. -/
structure Codec (α : Type) where
  encode : α → Option Bytes
  decode : Bytes → Option α
  decode_encode : ∀ a bytes, encode a = some bytes → decode bytes = some a

structure Codecs where
  manifest : Codec Manifest
  progress : Codec Progress
  scheduler : Codec Scheduler
  optimizer : Codec Optimizer
  rng : Codec Rng
  dataset : Codec Dataset
  /-- `fingerprint_file`, of a file's bytes. -/
  fingerprint : Bytes → String

/-! ### Directories -/

/-- A checkpoint directory: its files, and those under `artifacts/`. -/
structure Dir where
  files : String → Option Bytes
  artifacts : String → Option Bytes

namespace Dir

def empty : Dir := ⟨fun _ => none, fun _ => none⟩

def put (dir : Dir) (name : String) (bytes : Bytes) : Dir :=
  { dir with files := Function.update dir.files name (some bytes) }

def putArtifact (dir : Dir) (name : String) (bytes : Bytes) : Dir :=
  { dir with artifacts := Function.update dir.artifacts name (some bytes) }

def isFile (dir : Dir) (name : String) : Bool := (dir.files name).isSome

end Dir

abbrev Disk := String → Entry Dir

def stateDir (stem : String) : String := stem ++ ".state"

/-- `backup_dir_for`. -/
def backupDir (stem : String) : String := "." ++ stateDir stem ++ ".backup"

def temporaryDir (stem token : String) : String := "." ++ stateDir stem ++ ".tmp-" ++ token

/-- `state_dir.with_extension("gguf")`. -/
def exportFile (stem : String) : String :=
  if stem = "" then stateDir stem ++ ".gguf" else stem ++ ".gguf"

def temporaryExport (stem token : String) : String :=
  "." ++ stateDir stem ++ ".export-" ++ token ++ ".gguf"

/-- The complete authoritative directory. -/
def readableStateDir (disk : Disk) (stem : String) : String :=
  if (disk (stateDir stem)).isDir then stateDir stem
  else if (disk (backupDir stem)).isDir then backupDir stem
  else stateDir stem

/-! ### Reading -/

/-- `fs::read` of a file under a directory. -/
def fileAt (disk : Disk) (dir name : String) : Option Bytes :=
  match disk dir with
  | .dir content => content.files name
  | _ => none

def artifactAt (disk : Disk) (dir name : String) : Option Bytes :=
  match disk dir with
  | .dir content => content.artifacts name
  | _ => none

def readFile {α : Type} (codec : Codec α) (disk : Disk) (dir name : String) : Except Error α :=
  match fileAt disk dir name with
  | none => .error (.checkpoint s!"checkpoint file {dir}/{name} is unreadable")
  | some bytes => match codec.decode bytes with
    | none => .error (.checkpoint s!"failed to decode checkpoint {name}")
    | some value => .ok value

def expectVersion (actual : ℕ) (what : String) : Except Error Unit :=
  if actual = formatVersion then .ok ()
  else .error (.checkpoint
    s!"checkpoint {what} has schema version {actual}, expected {formatVersion}")

/-- The slots seen so far do not come back, and each starts where the last one ended. -/
def validateSlots (seen : List (String × String × String)) (next : ℕ) :
    List StateSlot → Except Error ℕ
  | [] => .ok next
  | slot :: slots =>
    if (slot.scope, slot.owner, slot.slot) ∈ seen then
      .error (.checkpoint
        s!"the checkpoint holds two '{slot.slot}' slots for {slot.scope} '{slot.owner}'")
    else if slot.offset ≠ next then
      .error (.checkpoint (s!"slot '{slot.slot}' of '{slot.owner}' starts at {slot.offset} where " ++
        s!"the payload continues at {next}"))
    else if 2 ^ 64 ≤ next + slot.nBytes then
      .error (.checkpoint "the optimizer slot table overflows its byte range")
    else validateSlots ((slot.scope, slot.owner, slot.slot) :: seen) (next + slot.nBytes) slots

def validateSlotTable (optimizer : Optimizer) : Except Error Unit := do
  let next ← validateSlots [] 0 optimizer.slots
  if next ≠ optimizer.stateBytes then
    throw (.checkpoint (s!"the optimizer slot table covers {next} bytes, the record declares " ++
      s!"{optimizer.stateBytes}"))

/-- Every declared file has to exist. -/
def requireFiles (disk : Disk) (dir : String) (names : List String) : Except Error Unit :=
  names.forM fun name =>
    if (fileAt disk dir name).isSome then .ok ()
    else .error (.checkpoint s!"checkpoint {dir} declares {name} but the file is missing")

def readArtifacts (disk : Disk) (dir : String) :
    List (String × ArtifactPolicy) → Except Error (List (String × Bytes))
  | [] => .ok []
  | (name, policy) :: rest =>
    match artifactAt disk dir name with
    | some bytes => do
      let artifacts ← readArtifacts disk dir rest
      pure ((name, bytes) :: artifacts)
    | none =>
      if policy = .required then
        .error (.checkpoint
          s!"checkpoint artifact {dir}/artifacts/{name} is required but unreadable")
      else readArtifacts disk dir rest

/-- The payload files a manifest and an optimizer record declare. -/
def payloadFiles (manifest : Manifest) (optimizer : Optimizer) : List String :=
  manifest.adapter.toList ++ (manifest.trainable.map TrainableBundle.file).toList ++
    (if 0 < optimizer.stateBytes then [optimizerStateFile] else [])

/-- `Checkpoint::read`. -/
def read (codecs : Codecs) (disk : Disk) (stem : String) : Except Error Checkpoint := do
  let dir := readableStateDir disk stem
  let manifest ← match readFile codecs.manifest disk dir manifestFile with
    | .ok manifest => .ok manifest
    | .error _ => .error (.checkpoint
      s!"{dir} is not a complete checkpoint: {manifestFile} is missing or unreadable")
  expectVersion manifest.formatVersion "manifest"
  requireFiles disk dir manifest.files
  let progress ← readFile codecs.progress disk dir progressFile
  expectVersion progress.version "progress"
  let scheduler ← readFile codecs.scheduler disk dir schedulerFile
  expectVersion scheduler.version "scheduler"
  let optimizer ← readFile codecs.optimizer disk dir optimizerFile
  expectVersion optimizer.version "optimizer"
  let rng ← readFile codecs.rng disk dir rngFile
  expectVersion rng.version "rng"
  let dataset ← readFile codecs.dataset disk dir datasetFile
  expectVersion dataset.version "dataset"
  validateSlotTable optimizer
  requireFiles disk dir (payloadFiles manifest optimizer)
  let artifacts ← readArtifacts disk dir manifest.artifacts
  pure { manifest, progress, scheduler, optimizer, rng, dataset, artifacts }

/-- `OptimizerStateReader::open`: the payload that will be streamed. -/
def openOptimizerState (disk : Disk) (stem : String) (optimizer : Optimizer) :
    Except Error Bytes :=
  let dir := readableStateDir disk stem
  match fileAt disk dir optimizerStateFile with
  | none => .error (.checkpoint
    s!"checkpoint optimizer state {dir}/{optimizerStateFile} is unreadable")
  | some bytes =>
    if bytes.length ≠ optimizer.stateBytes then
      .error (.checkpoint (s!"checkpoint optimizer state {dir}/{optimizerStateFile} is " ++
        s!"{bytes.length} bytes, the manifest declares {optimizer.stateBytes}"))
    else .ok bytes

/-! ### Writing -/

abbrev WriteM := DiskM String Dir Checkpoint Error

def encode {α : Type} (codec : Codec α) (value : α) (what : String) : WriteM Bytes :=
  match codec.encode value with
  | some bytes => pure bytes
  | none => refuse (.checkpoint s!"failed to encode checkpoint {what}")

/-- `fs::write` of an encoded record. -/
def writeRecord {α : Type} (codec : Codec α) (dir name what : String) (value : α) :
    WriteM Unit := do
  let bytes ← encode codec value what
  writeIn dir fun content => content.put name bytes

/-- What `write_payloads` does of the temporary directory, or how it fails. -/
abbrev Payloads := Dir → Except String Dir

def writePayloads (payloads : Payloads) (dir : String) : WriteM Unit := do
  let disk ← disk
  match disk dir with
  | .dir content => match payloads content with
    | .ok content => writeIn dir fun _ => content
    | .error message => refuse (.payload message)
  | _ => refuse (.payload "the temporary directory is gone")

/-- Declared and produced are two different things. -/
def requirePayloads (dir : String) (names : List (Option String × String)) : WriteM Unit :=
  names.forM fun (name, what) => do
    match name with
    | none => pure ()
    | some name =>
      let disk ← disk
      if !(fileAt disk dir name).isSome then
        refuse (.checkpoint
          s!"the checkpoint declares a {what} but none was written to {dir}/{name}")

/-- The size of a file that was just written. -/
def lengthOf (dir name : String) : WriteM ℕ := do
  look dir fun content => content.isFile name
  let disk ← disk
  pure ((fileAt disk dir name).getD []).length

/-- The optimizer's payload is as long as the slot table declares. -/
def requireStateBytes (dir : String) (optimizer : Optimizer) : WriteM Unit := do
  if 0 < optimizer.stateBytes then
    let written ← lengthOf dir optimizerStateFile
    if written ≠ optimizer.stateBytes then
      refuse (.checkpoint (s!"the optimizer state is {written} bytes, the slot table declares " ++
        s!"{optimizer.stateBytes}"))

/-- The manifest with what its bundle turned out to be. -/
def measured (codecs : Codecs) (manifest : Manifest) (dir : String) : WriteM Manifest :=
  match manifest.trainable with
  | none => pure manifest
  | some bundle => do
    let bytes ← lengthOf dir bundle.file
    look dir fun content => content.isFile bundle.file
    let disk ← disk
    let fingerprint := codecs.fingerprint ((fileAt disk dir bundle.file).getD [])
    pure { manifest with trainable := some { bundle with bytes, fingerprint } }

/-- `Checkpoint::write_into`, with the manifest it wrote. -/
def writeInto (codecs : Codecs) (checkpoint : Checkpoint) (payloads : Payloads) (dir : String) :
    WriteM Manifest := do
  let _ ← attempt (removeDirAll dir)
  createDirAll Dir.empty dir
  writePayloads payloads dir
  requirePayloads dir [(checkpoint.manifest.adapter, "adapter"),
    (checkpoint.manifest.trainable.map TrainableBundle.file, "trainable bundle"),
    (if 0 < checkpoint.optimizer.stateBytes then some optimizerStateFile else none,
      "optimizer state")]
  requireStateBytes dir checkpoint.optimizer
  writeRecord codecs.progress dir progressFile "progress" checkpoint.progress
  writeRecord codecs.scheduler dir schedulerFile "scheduler" checkpoint.scheduler
  writeRecord codecs.optimizer dir optimizerFile "optimizer" checkpoint.optimizer
  writeRecord codecs.rng dir rngFile "rng" checkpoint.rng
  writeRecord codecs.dataset dir datasetFile "dataset" checkpoint.dataset
  -- the directory of the artifacts, which shows only through them
  unless checkpoint.artifacts.isEmpty do look dir fun _ => true
  checkpoint.artifacts.forM fun (name, bytes) =>
    writeIn dir fun content => content.putArtifact name bytes
  -- last, and only after everything above landed
  let manifest ← measured codecs checkpoint.manifest dir
  writeRecord codecs.manifest dir manifestFile "manifest" manifest
  pure manifest

/-- The conventional sibling of an adapter, which no resume reads. -/
def exportAdapter (stem token : String) (adapter : String) : WriteM Unit := do
  copyOut (stateDir stem) (fun content => content.isFile adapter) (temporaryExport stem token)
  let disk ← disk
  if (disk (exportFile stem)).present then removeFile (exportFile stem)
  rename (temporaryExport stem token) (exportFile stem)

/-- A canonical directory is newer than a backup, which is stale then. -/
def removeStale (stem : String) : WriteM Unit := do
  let before ← disk
  if (before (stateDir stem)).isDir && (before (backupDir stem)).present then
    removeDirAll (backupDir stem)

/-- What stands in the place is moved aside. -/
def moveAside (stem : String) : WriteM Unit := do
  removeStale stem
  let moving ← disk
  if (moving (stateDir stem)).present then rename (stateDir stem) (backupDir stem)

/-- What was moved aside is put back, and the temporary directory goes. -/
def putBack (stem token : String) : WriteM Unit := do
  let failed ← disk
  if (failed (backupDir stem)).isDir && !(failed (stateDir stem)).present then
    let _ ← attempt (rename (backupDir stem) (stateDir stem))
  let _ ← attempt (removeDirAll (temporaryDir stem token))

/-- The previous checkpoint is moved aside and the new one put in its place. -/
def publish (stem token : String) (checkpoint : Checkpoint) : WriteM Unit := do
  moveAside stem
  match ← attempt (rename (temporaryDir stem token) (stateDir stem)) with
  | .error stop =>
    putBack stem token
    throw stop
  | .ok () =>
    announce checkpoint
    let published ← disk
    if (published (backupDir stem)).present then removeDirAll (backupDir stem)

/-- `Checkpoint::write`. -/
def write (codecs : Codecs) (stem token : String) (checkpoint : Checkpoint)
    (payloads : Payloads) : WriteM Unit := do
  let temporary := temporaryDir stem token
  -- the parent directory
  operation some fun _ disk => disk
  match ← attempt (writeInto codecs checkpoint payloads temporary) with
  | .error stop =>
    let _ ← attempt (removeDirAll temporary)
    throw stop
  | .ok manifest =>
    publish stem token { checkpoint with manifest }
    match checkpoint.manifest.adapter with
    | none => pure ()
    | some adapter => exportAdapter stem token adapter

/-! ### Resuming -/

/-- `str::parse::<u64>`. -/
def parseU64 (text : String) : Option ℕ :=
  let digits := match text.toList with
    | '+' :: rest => rest
    | chars => chars
  if digits = [] ∨ ¬ digits.all Char.isDigit then none
  else
    let value := digits.foldl (fun value digit => 10 * value + (digit.toNat - '0'.toNat)) 0
    if value < 2 ^ 64 then some value else none

/-- The text before an ending. -/
def stripEnd (text ending : String) : Option String :=
  (ending.toList.reverse.isPrefixOf? text.toList.reverse).map fun rest =>
    String.ofList rest.reverse

/-- What a directory's name says it is: a step's checkpoint, or the best one. -/
inductive Named
  | step (step : ℕ)
  | best

def named (name : String) : Option Named :=
  match stripEnd name ".state" with
  | none => none
  | some stem =>
    if stem = "best" then some .best
    else ((stripFront stem "step-").bind parseU64).map .step

/-- The candidates seen so far: the highest step, and the best one. -/
def consider (disk : Disk) (seen : Option (ℕ × String) × Option String) (name : String) :
    Option (ℕ × String) × Option String :=
  if !(disk name).isDir then seen
  else match named name with
    | none => seen
    | some .best => (seen.1, some name)
    | some (.step step) =>
      if seen.1.all fun current => current.1 < step then (some (step, name), seen.2) else seen

/-- `latest_checkpoint`, over the names `read_dir` lists. -/
def latestCheckpoint (disk : Disk) (listing : List String) : Except Error String :=
  let (bestStep, bestEval) := listing.foldl (consider disk) (none, none)
  match (bestStep.map Prod.snd).or bestEval with
  | some name => .ok name
  | none => .error (.checkpoint "--resume found no checkpoints")

end Retrograd.Checkpoints
