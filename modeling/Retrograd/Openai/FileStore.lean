import Retrograd.Openai.StoreRuns

/-!
# The file store

One file per response, put in place by a rename. The file store and the bounded store hold the
**same** responses after the same calls, as long as the bounds are not reached: where one counts
pins, the other reads off its files which responses are continued.
-/

namespace Retrograd.Openai

open Logic MemoryInner List Option

/-! ### The directory -/

/-- An id is a path segment of a file store: whatever could escape is refused. -/
def validId (id : String) : Bool :=
  !id.isEmpty && decide (id.utf8ByteSize ≤ 128) &&
    id.toList.all fun c => c.isAlphanum || c == '_' || c == '-' || c == '.'

/-- The names in the directory: the file of a response, and a file that is still being written. -/
inductive FileName where
  | json (id : String)
  | tmp (id unique : String)
deriving DecidableEq

/-- The id in the name of a response's file. -/
def FileName.id : FileName → Option String
  | .json id => some id
  | .tmp _ _ => none

abbrev Files := List (FileName × String)

namespace Files

/-- The texts in the files of responses. -/
def texts (files : Files) : List (String × String) :=
  files.filterMap fun file => file.1.id.map (·, file.2)

def read (files : Files) (name : FileName) : Option String := files.lookup name

def removeFile (files : Files) (name : FileName) : Files := files.filter fun file => file.1 ≠ name

def write (files : Files) (name : FileName) (text : String) : Files :=
  files.removeFile name ++ [(name, text)]

/-- The file under a new name, in place of what stood there. -/
def rename (files : Files) (name target : FileName) : Files :=
  match files.read name with
  | none => files
  | some text => (files.removeFile name).write target text

end Files

/-- How a response is written to a file and read back. -/
structure StoredCodec where
  toText : StoredResponse → String
  fromText : String → Except String StoredResponse

/-! ### The store -/

structure FileStore where
  codec : StoredCodec
  maxChainDepth : ℕ

namespace FileStore

def new (codec : StoredCodec) (options : StoreOptions) : FileStore := ⟨codec, options.maxChainDepth⟩

/-- The file of an id. -/
def path (id : String) : Option FileName := if validId id then some (.json id) else none

/-- The depth of a response, read off the file of the one it continues. -/
def chainDepth (store : FileStore) (files : Files) : Option String → Except StoreError ℕ
  | none => .ok 1
  | some ancestor =>
    match path ancestor with
    | none => .error (.io "an invalid previous id")
    | some parentPath =>
      match files.read parentPath with
      | none => .error (.io (s!"the previous response `{ancestor}` is gone from the store: " ++
          "No such file or directory (os error 2)"))
      | some text =>
        match store.codec.fromText text with
        | .error error =>
          .error (.io s!"the previous response `{ancestor}` is unreadable: {error}")
        | .ok parent =>
          if store.maxChainDepth ≤ parent.chainDepth then .error (.chainTooDeep store.maxChainDepth)
          else .ok (parent.chainDepth + 1)

/-- The file of a new response. -/
def freePath (files : Files) (id : String) : Except StoreError FileName :=
  match path id with
  | none => .error (.io "an invalid response id")
  | some path =>
    if (files.read path).isSome then .error (.io "a stored response id already exists") else .ok path

/-- The checks of a put: the id, its file, and the response with its place in its chain. -/
def check (store : FileStore) (files : Files) (response : StoredResponse) :
    Except StoreError (String × FileName × StoredResponse) :=
  match (response.response.member "id").bind Json.asStr with
  | none => .error (.io "a stored response needs an id")
  | some id => do
    let depth ← store.chainDepth files response.previousResponseId
    let path ← freePath files id
    .ok (id, path, { response with chainDepth := depth })

/-- The response goes to a temporary file first, whose name holds a part no other has. -/
def put (store : FileStore) (files : Files) (unique : String) (response : StoredResponse) :
    Except StoreError String × Files :=
  match store.check files response with
  | .error error => (.error error, files)
  | .ok (id, path, stored) =>
    let temporary := FileName.tmp id unique
    (.ok id, (files.write temporary (store.codec.toText stored)).rename temporary path)

def get (store : FileStore) (files : Files) (id : String) : Option StoredResponse :=
  (path id).bind fun path => (files.read path).bind fun text => (store.codec.fromText text).toOption

def delete (files : Files) (id : String) : Bool × Files :=
  match path id with
  | none => (false, files)
  | some path => ((files.read path).isSome, files.removeFile path)

def inputItems (store : FileStore) (files : Files) (id : String) : Option (List Json) :=
  (store.get files id).map StoredResponse.inputItems

/-- The readable files of responses. -/
def readable (store : FileStore) (files : Files) : List (String × StoredResponse) :=
  files.texts.filterMap fun file => (store.codec.fromText file.2).toOption.map (file.1, ·)

/-- Removes the old files that no readable one continues. -/
def purge (store : FileStore) (files : Files) (olderThanUnix : ℕ) : ℕ × Files :=
  let found := store.readable files
  let referenced : List String := found.filterMap fun entry => entry.2.previousResponseId
  let candidates := found.filter fun entry => decide (entry.2.createdAt < olderThanUnix)
  let victims := (candidates.filter fun entry => decide (entry.1 ∉ referenced)).map Prod.fst
  (victims.length, victims.foldl (fun files id => files.removeFile (.json id)) files)

/-- One call; a put draws the unique part of a temporary name. -/
def step (store : FileStore) (files : Files) (unique : String) : Call → Answer × Files
  | .put response =>
    let (outcome, files) := store.put files unique response; (.put outcome, files)
  | .get id => (.get (store.get files id), files)
  | .delete id => let (removed, files) := delete files id; (.delete removed, files)
  | .purge olderThanUnix =>
    let (count, files) := store.purge files olderThanUnix; (.purge count, files)
  | .inputItems id => (.inputItems (store.inputItems files id), files)

/-- What a put leaves when the process is killed in it: nothing, any part of the temporary file, or
all it does. -/
inductive Killed (store : FileStore) (files : Files) (unique : String) (response : StoredResponse) :
    Files → Prop
  | before : Killed store files unique response files
  | writing {id : String} {path : FileName} {stored : StoredResponse} (part : String)
      (hcheck : store.check files response = .ok (id, path, stored)) :
      Killed store files unique response (files.write (.tmp id unique) part)
  | after : Killed store files unique response (store.put files unique response).2

end FileStore

open FileStore

/-! ### Calls to both stores -/

/-- The ids that a call names are valid. -/
def Call.Valid : Call → Prop
  | .put response =>
    (∀ id, (response.response.member "id").bind Json.asStr = some id → validId id) ∧
      ∀ ancestor, response.previousResponseId = some ancestor → validId ancestor
  | .get id | .delete id | .inputItems id => validId id
  | .purge _ => True

/-- A call reaches no bound of the bounded store. -/
def Uncrowded (options : StoreOptions) (inner : MemoryInner) : Call → Prop
  | .put response => response.bytes ≤ options.maxBytes ∧ 0 < options.maxResponses ∧
      ∀ id stored, inner.check options response = .ok (id, stored) →
        inner.entries.length < options.maxResponses ∧ inner.bytes + stored.bytes ≤ options.maxBytes
  | _ => True

/-- A response that is put in is read back as it was written. -/
def ReadsBack (codec : StoredCodec) (options : StoreOptions) (inner : MemoryInner) : Call → Prop
  | .put response => ∀ id stored, inner.check options response = .ok (id, stored) →
      codec.fromText (codec.toText stored) = .ok stored
  | _ => True

/-- The states of both stores after the same calls. -/
inductive Together (options : StoreOptions) (codec : StoredCodec) : MemoryInner → Files → Prop
  | start : Together options codec {} []
  | call {inner : MemoryInner} {files : Files} (h : Together options codec inner files) (call : Call)
      (unique : String) (hvalid : call.Valid) (hroom : Uncrowded options inner call)
      (hback : ReadsBack codec options inner call) :
      Together options codec (step options inner call).2
        ((FileStore.new codec options).step files unique call).2

/-- Answers that say the same, up to the reason why a put was refused. -/
def Alike : Answer → Answer → Prop
  | .put outcome, .put outcome' => outcome.toOption = outcome'.toOption
  | answer, answer' => answer = answer'

/-! ### Files and their texts -/

variable {files : Files} {id other unique text : String}

theorem read_json : files.read (.json id) = files.texts.lookup id := by
  induction files with
  | nil => rfl
  | cons file files ih =>
    obtain ⟨name, text⟩ := file
    rw [Files.read] at ih ⊢
    rcases name with other | ⟨other, unique⟩
    · by_cases heq : id = other
      · subst heq
        simp [Files.texts, FileName.id]
      · have hne : (FileName.json id == .json other) = false := by simpa using heq
        have hid : (id == other) = false := by simpa using heq
        simpa [Files.texts, FileName.id, List.lookup_cons, hne, hid] using ih
    · have hne : (FileName.json id == .tmp other unique) = false := rfl
      simpa [Files.texts, FileName.id, List.lookup_cons, hne] using ih

theorem texts_append (files' : Files) : (files ++ files' : Files).texts = files.texts ++ files'.texts :=
  filterMap_append

/-- A temporary file holds no response, so its removal leaves the texts. -/
theorem texts_removeFile (name : FileName) :
    (files.removeFile name).texts = files.texts.filter fun file => some file.1 ≠ name.id := by
  rw [Files.removeFile, Files.texts, Files.texts, filterMap_filter, filter_filterMap]
  refine filterMap_congr fun file _ => ?_
  obtain ⟨found, text⟩ := file
  rcases found with other | ⟨other, unique⟩
  · by_cases heq : FileName.json other = name
    · subst heq
      simp [FileName.id, Option.filter]
    · have hid : some other ≠ name.id := by
        rcases name with id | ⟨id, unique⟩
        · exact fun hid => heq (congrArg FileName.json (some.inj hid))
        · exact some_ne_none other
      have hname : (FileName.json other).id = some other := rfl
      simp only [hname, map_some, Option.filter, decide_eq_true heq, decide_eq_true hid, if_true]
  · simp [FileName.id]

theorem texts_write_tmp : (files.write (.tmp id unique) text).texts = files.texts := by
  rw [Files.write, texts_append, texts_removeFile]
  simp [FileName.id, Files.texts]

theorem read_write (name : FileName) : (files.write name text).read name = some text := by
  have hnone : (files.removeFile name).lookup name = none := by
    rw [lookup_eq_none_iff]
    intro file hfile
    have hne := of_decide_eq_true (mem_filter.mp hfile).2
    simpa using Ne.symm hne
  rw [Files.read, Files.write, lookup_append, hnone]
  simp

/-- Renaming the temporary file puts its text under the id. -/
theorem texts_rename : ((files.write (.tmp id unique) text).rename (.tmp id unique) (.json id)).texts =
    (files.texts.filter fun file => file.1 ≠ id) ++ [(id, text)] := by
  rw [Files.rename, read_write]
  change (((files.write (.tmp id unique) text).removeFile (.tmp id unique)).write (.json id) text).texts = _
  rw [Files.write, texts_append, texts_removeFile, texts_removeFile, texts_write_tmp]
  simp [FileName.id, Files.texts]

theorem lookup_map_snd {α : Type} (f : StoredResponse → α) (entries : List (String × StoredResponse)) :
    (entries.map fun entry => (entry.1, f entry.2)).lookup id = (entries.lookup id).map f := by
  induction entries with
  | nil => rfl
  | cons entry entries ih =>
    rw [map_cons, List.lookup_cons, List.lookup_cons, ih]
    split <;> rfl

/-! ### The same responses -/

/-- Two stores hold the same responses, and the files can be read. -/
structure Same (store : FileStore) (files : Files) (inner : MemoryInner) : Prop where
  mirrored : Mirrored inner
  texts : files.texts = inner.entries.map fun entry => (entry.1, store.codec.toText entry.2)
  readable : ∀ entry ∈ inner.entries,
    store.codec.fromText (store.codec.toText entry.2) = .ok entry.2

variable {store : FileStore} {options : StoreOptions} {inner : MemoryInner}
  {response stored : StoredResponse}

theorem Same.read (h : Same store files inner) :
    files.read (.json id) = (inner.entry id).map store.codec.toText := by
  rw [read_json, h.texts, lookup_map_snd, MemoryInner.entry]

theorem Same.fromText (h : Same store files inner) (hentry : inner.entry id = some stored) :
    store.codec.fromText (store.codec.toText stored) = .ok stored := by
  obtain ⟨front, back, hsplit, -⟩ := lookup_eq_some_iff.mp hentry
  exact h.readable (id, stored) (hsplit ▸ by simp)

theorem Same.get (h : Same store files inner) (hvalid : validId id) :
    store.get files id = inner.entry id := by
  rw [FileStore.get, path, if_pos hvalid, bind_some, h.read]
  cases hentry : inner.entry id with
  | none => rfl
  | some stored =>
    rw [map_some, bind_some, h.fromText hentry]
    rfl

theorem Same.found (h : Same store files inner) : FileStore.readable store files = inner.entries := by
  have hback : ∀ entries : List (String × StoredResponse), (∀ entry ∈ entries,
      store.codec.fromText (store.codec.toText entry.2) = .ok entry.2) →
      (entries.map fun entry => (entry.1, store.codec.toText entry.2)).filterMap
        (fun file => (store.codec.fromText file.2).toOption.map (file.1, ·)) = entries := by
    intro entries hentries
    induction entries with
    | nil => rfl
    | cons entry entries ih =>
      rw [forall_mem_cons] at hentries
      rw [map_cons, filterMap_cons, hentries.1, ih hentries.2]
      rfl
  rw [FileStore.readable, h.texts, hback _ h.readable]

/-- Both stores refuse a put, or both accept it with the same depth. -/
theorem Same.check (h : Same store files inner) (hdepth : store.maxChainDepth = options.maxChainDepth)
    (hvalid : (Call.put response).Valid) (hbytes : response.bytes ≤ options.maxBytes)
    (hcount : 0 < options.maxResponses) :
    (∃ error error', inner.check options response = .error error ∧
      store.check files response = .error error') ∨
    ∃ id stored, inner.check options response = .ok (id, stored) ∧
      (response.response.member "id").bind Json.asStr = some id ∧
      inner.entry id = none ∧ store.check files response = .ok (id, .json id, stored) := by
  have hbound : ¬ (options.maxBytes < response.bytes ∨ options.maxResponses = 0) := by omega
  rw [MemoryInner.check, FileStore.check]
  cases hid : (response.response.member "id").bind Json.asStr with
  | none => exact .inl ⟨_, _, rfl, rfl⟩
  | some id =>
    have hpath : freePath files id = if (inner.entry id).isSome then
        .error (.io "a stored response id already exists") else .ok (.json id) := by
      rw [freePath, path, if_pos (hvalid.1 id hid)]
      dsimp only
      rw [h.read, isSome_map]
    dsimp only
    rw [hpath, if_neg hbound]
    cases hentry : inner.entry id with
    | some other =>
      -- the depth is looked up first, but either way the put is refused
      cases store.chainDepth files response.previousResponseId <;> exact .inl ⟨_, _, rfl, rfl⟩
    | none =>
      simp only [isSome_none, Bool.false_eq_true, if_false]
      cases hprevious : response.previousResponseId with
      | none => exact .inr ⟨id, _, rfl, rfl, hentry, rfl⟩
      | some ancestor =>
        rw [FileStore.chainDepth, path, if_pos (hvalid.2 ancestor hprevious)]
        dsimp only
        rw [h.read]
        cases hparent : inner.entry ancestor with
        | none => exact .inl ⟨_, _, rfl, rfl⟩
        | some parent =>
          rw [map_some]
          dsimp only
          rw [h.fromText hparent, hdepth]
          dsimp only
          split_ifs
          · exact .inl ⟨_, _, rfl, rfl⟩
          · exact .inr ⟨id, _, rfl, rfl, hentry, rfl⟩

/-! ### Calls -/

/-- A response that is put in among the files. -/
theorem Same.insert (h : Same store files inner) (hnew : inner.entry id = none)
    (hbytes : inner.bytes + stored.bytes < usizeBound)
    (hback : store.codec.fromText (store.codec.toText stored) = .ok stored) :
    Same store ((files.write (.tmp id unique) (store.codec.toText stored)).rename (.tmp id unique)
      (.json id)) (inner.insert id stored) where
  mirrored := h.mirrored.insert hnew hbytes
  texts := by
    have hkeep : (files.texts.filter fun file => file.1 ≠ id) = files.texts := by
      rw [filter_eq_self, h.texts]
      intro file hfile
      obtain ⟨entry, hentry, rfl⟩ := List.mem_map.mp hfile
      refine decide_eq_true fun heq => entry_eq_none_iff.mp hnew ?_
      exact heq ▸ List.mem_map_of_mem hentry
    rw [texts_rename, hkeep, h.texts, MemoryInner.insert, map_append]
    rfl
  readable := by
    intro entry hentry
    rcases mem_append.mp hentry with hold | hlast
    · exact h.readable entry hold
    · rw [mem_singleton.mp hlast]
      exact hback

theorem Same.remove (h : Same store files inner) :
    Same store (files.removeFile (.json id)) (inner.remove id).2 where
  mirrored := h.mirrored.remove id
  texts := by
    rw [texts_removeFile, h.texts, entries_remove, List.filter_map]
    simp [FileName.id, Function.comp_def]
  readable := by
    rw [entries_remove]
    exact fun entry hentry => h.readable entry (mem_filter.mp hentry).1

theorem Same.removeAll (h : Same store files inner) (victims : List String) :
    Same store (victims.foldl (fun files id => files.removeFile (.json id)) files)
      (victims.foldl (fun inner victim => (inner.remove victim).2) inner) := by
  induction victims generalizing files inner with
  | nil => exact h
  | cons victim victims ih => exact ih h.remove

theorem Same.touch (h : Same store files inner) : Same store files (inner.get id).2 := by
  rw [MemoryInner.get]
  cases hentry : inner.entry id with
  | none => exact h
  | some stored => exact ⟨h.mirrored.touch hentry, h.texts, h.readable⟩

theorem get_fst : (inner.get id).1 = inner.entry id := by
  rw [MemoryInner.get]
  cases inner.entry id <;> rfl

/-- Both stores purge the same responses: those that are pinned are those that a file continues. -/
theorem Same.victims (h : Same store files inner) (olderThanUnix : ℕ) :
    ((FileStore.readable store files).filter fun entry => decide (entry.2.createdAt < olderThanUnix)).filter
        (fun entry => decide (entry.1 ∉ (FileStore.readable store files).filterMap
          fun entry => entry.2.previousResponseId)) =
      inner.entries.filter fun entry =>
        decide (entry.2.createdAt < olderThanUnix) && (inner.pins entry.1).isNone := by
  rw [h.found, List.filter_filter]
  refine filter_congr fun entry _ => ?_
  have hpinned : decide (entry.1 ∉ inner.entries.filterMap fun entry => entry.2.previousResponseId) =
      (inner.pins entry.1).isNone := by
    rw [Bool.eq_iff_iff, decide_eq_true_eq, h.mirrored.pins_isNone_iff, mem_filterMap]
    rfl
  rw [hpinned, Bool.and_comm]

/-- No bound is reached, so nothing is evicted. -/
theorem evict_none {steps : ℕ} (hwithin : inner.exceeds options = false) :
    evict options id (steps + 1) inner = (.ok (), inner) := by
  rw [evict, hwithin]
  rfl

/-- A call to both stores is answered alike, and they hold the same responses again. -/
theorem Same.step (h : Same store files inner) (hdepth : store.maxChainDepth = options.maxChainDepth)
    (hcap : options.maxBytes < usizeBound) (call : Call) (unique : String) (hvalid : call.Valid)
    (hroom : Uncrowded options inner call) (hback : ReadsBack store.codec options inner call) :
    Alike (step options inner call).1 (store.step files unique call).1 ∧
      Same store (store.step files unique call).2 (Openai.step options inner call).2 := by
  rcases call with response | id | id | olderThanUnix | id
  · obtain ⟨hbytes, hcount, hfits⟩ := hroom
    rw [Openai.step, FileStore.step, MemoryInner.put, FileStore.put]
    rcases h.check hdepth hvalid hbytes hcount with
      ⟨error, error', hmemory, hfiles⟩ | ⟨id, stored, hmemory, -, hnew, hfiles⟩
    · rw [hmemory, hfiles]
      exact ⟨rfl, h⟩
    · obtain ⟨hlength, hsum⟩ := hfits id stored hmemory
      have hsmall : inner.bytes + stored.bytes < usizeBound := hsum.trans_lt hcap
      have hwithin : (inner.insert id stored).exceeds options = false := by
        have hbytes : (inner.insert id stored).bytes = inner.bytes + stored.bytes :=
          Nat.mod_eq_of_lt hsmall
        have hentries : (inner.insert id stored).entries.length = inner.entries.length + 1 := by
          rw [MemoryInner.insert, length_append, length_singleton]
        rw [MemoryInner.exceeds, hbytes, hentries]
        simp only [Bool.or_eq_false_iff, decide_eq_false_iff_not]
        omega
      rw [hmemory, hfiles]
      dsimp only
      rw [evict_none hwithin]
      exact ⟨rfl, h.insert hnew hsmall (hback id stored hmemory)⟩
  · rw [Openai.step, FileStore.step, h.get hvalid]
    exact ⟨congrArg Answer.get get_fst, h.touch⟩
  · have hremoved : (inner.remove id).1.isSome = (inner.entry id).isSome := by
      rw [MemoryInner.remove]
      cases inner.entry id <;> rfl
    rw [Openai.step, FileStore.step, MemoryInner.delete, FileStore.delete, path,
      if_pos (show validId id = true from hvalid)]
    dsimp only
    rw [h.read, isSome_map, hremoved]
    exact ⟨rfl, h.remove⟩
  · rw [Openai.step, FileStore.step, MemoryInner.purge, FileStore.purge]
    dsimp only
    rw [h.victims]
    exact ⟨rfl, h.removeAll _⟩
  · rw [Openai.step, FileStore.step, MemoryInner.inputItems, FileStore.inputItems, h.get hvalid]
    refine ⟨?_, h.touch⟩
    change Answer.inputItems ((inner.get id).1.map StoredResponse.inputItems) = _
    rw [get_fst]

theorem Together.same {codec : StoredCodec} (h : Together options codec inner files)
    (hcap : options.maxBytes < usizeBound) : Same (FileStore.new codec options) files inner := by
  induction h with
  | start => exact ⟨(Sound.start options).mirrored, rfl, fun entry h => absurd h not_mem_nil⟩
  | call h call unique hvalid hroom hback ih =>
    exact (ih.step rfl hcap call unique hvalid hroom hback).2

/-! ### A put that is killed -/

theorem get_congr {files' : Files} (h : files'.texts = files.texts) :
    store.get files' id = store.get files id := by
  rw [FileStore.get, FileStore.get, path]
  split_ifs
  · rw [bind_some, bind_some, read_json, read_json, h]
  · rfl

theorem entry_insert_of_ne (hne : other ≠ id) : (inner.insert id stored).entry other = inner.entry other := by
  have hbeq : (other == id) = false := by simpa using hne
  rw [MemoryInner.entry, MemoryInner.insert, lookup_append, List.lookup_cons, hbeq]
  exact or_none

/-- A killed put leaves every answer as it was, but for its own id, which may have its whole response. -/
theorem Same.killed (h : Same store files inner) (hdepth : store.maxChainDepth = options.maxChainDepth)
    (hcap : options.maxBytes < usizeBound) (hvalid : (Call.put response).Valid)
    (hroom : Uncrowded options inner (.put response))
    (hback : ReadsBack store.codec options inner (.put response)) {files' : Files}
    (hkilled : Killed store files unique response files') (hid : validId id) :
    store.get files' id = store.get files id ∨
      (response.response.member "id").bind Json.asStr = some id ∧ store.get files id = none ∧
        ∃ depth, store.get files' id = some { response with chainDepth := depth } := by
  rcases hkilled with _ | ⟨part, hcheck⟩ | _
  · exact .inl rfl
  · exact .inl (get_congr texts_write_tmp)
  · rw [FileStore.put]
    rcases h.check hdepth hvalid hroom.1 hroom.2.1 with
      ⟨error, error', -, hfiles⟩ | ⟨own, stored, hmemory, hown, hnew, hfiles⟩
    · rw [hfiles]
      exact .inl rfl
    · obtain ⟨-, depth, rfl, -⟩ := check_ok hmemory
      obtain ⟨-, hsum⟩ := hroom.2.2 own _ hmemory
      rw [hfiles]
      dsimp only
      rw [(h.insert hnew (hsum.trans_lt hcap) (hback own _ hmemory)).get hid, h.get hid]
      by_cases heq : id = own
      · subst heq
        exact .inr ⟨hown, hnew, depth, entry_insert hnew⟩
      · exact .inl (entry_insert_of_ne heq)

/-- The text of one response and back. -/
def oneText : StoredCodec where
  toText _ := "\x7b\"response\":\x7b\"id\":\"x\"\x7d,\"input_items\":[],\"created_at\":0,\"bytes\":10," ++
    "\"previous_response_id\":null,\"chain_depth\":1,\"model\":\"m\",\"weights\":\"cold:base.gguf\"," ++
    "\"fingerprint\":\"fp\",\"base_model\":null,\"owner\":null\x7d"
  fromText _ := .ok (sized "x" 10 none)

end Retrograd.Openai
