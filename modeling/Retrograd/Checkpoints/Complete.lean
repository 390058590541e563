import Retrograd.Checkpoints.Record
import Retrograd.Logic.Except

/-!
# Complete directories

A directory is **complete** for a checkpoint when reading it gives that checkpoint back.
`writeInto_spec`: whatever the temporary directory held, and whatever it is left with when it stops,
`write_into` touches nothing else, and where it returns the temporary directory is complete.
-/

namespace Retrograd.Checkpoints

open Logic List Option Function

/-- A checkpoint its builder may hand in: every version is the current one, the slot table covers
the payload, and the artifacts are the declared ones. -/
structure Checkpoint.Valid (checkpoint : Checkpoint) : Prop where
  manifest : checkpoint.manifest.formatVersion = formatVersion
  progress : checkpoint.progress.version = formatVersion
  scheduler : checkpoint.scheduler.version = formatVersion
  optimizer : checkpoint.optimizer.version = formatVersion
  rng : checkpoint.rng.version = formatVersion
  dataset : checkpoint.dataset.version = formatVersion
  files : ∀ name ∈ checkpoint.manifest.files, name ∈ requiredFiles
  slots : validateSlotTable checkpoint.optimizer = .ok ()
  artifacts : checkpoint.manifest.artifacts.map Prod.fst = checkpoint.artifacts.map Prod.fst
  distinct : (checkpoint.artifacts.map Prod.fst).Nodup

/-- A file holds an encoded record. -/
def Dir.Holds {α : Type} (content : Dir) (codec : Codec α) (name : String) (value : α) : Prop :=
  ∃ bytes, content.files name = some bytes ∧ codec.decode bytes = some value

/-- A directory that reads back as a checkpoint. -/
structure Complete (codecs : Codecs) (content : Dir) (checkpoint : Checkpoint) : Prop where
  valid : checkpoint.Valid
  manifest : content.Holds codecs.manifest manifestFile checkpoint.manifest
  progress : content.Holds codecs.progress progressFile checkpoint.progress
  scheduler : content.Holds codecs.scheduler schedulerFile checkpoint.scheduler
  optimizer : content.Holds codecs.optimizer optimizerFile checkpoint.optimizer
  rng : content.Holds codecs.rng rngFile checkpoint.rng
  dataset : content.Holds codecs.dataset datasetFile checkpoint.dataset
  payloads : ∀ name ∈ payloadFiles checkpoint.manifest checkpoint.optimizer,
    (content.files name).isSome
  optimizerState : 0 < checkpoint.optimizer.stateBytes → ∃ bytes,
    content.files optimizerStateFile = some bytes ∧
      bytes.length = checkpoint.optimizer.stateBytes
  artifacts : ∀ entry ∈ checkpoint.artifacts, content.artifacts entry.1 = some entry.2

section Read

variable {codecs : Codecs} {content : Dir} {checkpoint : Checkpoint} {disk : Disk} {dir : String}

theorem Complete.isSome_of_required (h : Complete codecs content checkpoint) {name : String}
    (hname : name ∈ requiredFiles) : (content.files name).isSome := by
  have hsome {α : Type} {codec : Codec α} {name : String} {value : α}
      (h : content.Holds codec name value) : (content.files name).isSome := by
    obtain ⟨bytes, hbytes, -⟩ := h
    rw [hbytes, isSome_some]
  simp only [requiredFiles, mem_cons, not_mem_nil, or_false] at hname
  rcases hname with rfl | rfl | rfl | rfl | rfl
  · exact hsome h.progress
  · exact hsome h.scheduler
  · exact hsome h.optimizer
  · exact hsome h.rng
  · exact hsome h.dataset

theorem readFile_of_holds {α : Type} {codec : Codec α} {name : String} {value : α}
    (hdir : disk dir = .dir content) (h : content.Holds codec name value) :
    readFile codec disk dir name = .ok value := by
  obtain ⟨bytes, hbytes, hvalue⟩ := h
  rw [readFile, fileAt, hdir]
  dsimp only
  rw [hbytes]
  dsimp only
  rw [hvalue]

theorem requireFiles_of (hdir : disk dir = .dir content) {names : List String}
    (h : ∀ name ∈ names, (content.files name).isSome) : requireFiles disk dir names = .ok () := by
  induction names with
  | nil => rfl
  | cons name names ih =>
    have hfirst : (fileAt disk dir name).isSome = true := by
      rw [fileAt, hdir]
      exact h name mem_cons_self
    show ((if (fileAt disk dir name).isSome then Except.ok () else _) >>=
      fun _ => requireFiles disk dir names) = _
    rw [if_pos hfirst]
    exact ih fun other hother => h other (mem_cons_of_mem _ hother)

theorem readArtifacts_of (hdir : disk dir = .dir content)
    {policies : List (String × ArtifactPolicy)} {artifacts : List (String × Bytes)}
    (hnames : policies.map Prod.fst = artifacts.map Prod.fst)
    (h : ∀ entry ∈ artifacts, content.artifacts entry.1 = some entry.2) :
    readArtifacts disk dir policies = .ok artifacts := by
  induction policies generalizing artifacts with
  | nil =>
    obtain rfl : artifacts = [] := map_eq_nil_iff.mp hnames.symm
    rfl
  | cons policy policies ih =>
    cases artifacts with
    | nil => cases hnames
    | cons artifact artifacts =>
      obtain ⟨name, policy⟩ := policy
      obtain ⟨name', bytes⟩ := artifact
      obtain ⟨rfl, htail⟩ : name = name' ∧ policies.map Prod.fst = artifacts.map Prod.fst :=
        cons.inj hnames
      have hfirst : artifactAt disk dir name = some bytes := by
        rw [artifactAt, hdir]
        exact h (name, bytes) mem_cons_self
      unfold readArtifacts
      rw [hfirst, ih htail fun entry hentry => h entry (mem_cons_of_mem _ hentry)]
      rfl

theorem expectVersion_of {actual : ℕ} (what : String) (h : actual = formatVersion) :
    expectVersion actual what = .ok () := if_pos h

/-- A complete directory that is the readable one is read back. -/
theorem Complete.read {stem : String} (h : Complete codecs content checkpoint)
    (hdir : disk (readableStateDir disk stem) = .dir content) :
    read codecs disk stem = .ok checkpoint := by
  have hvalid := h.valid
  unfold Checkpoints.read
  dsimp only
  rw [readFile_of_holds hdir h.manifest]
  simp only [bind, Except.bind]
  rw [expectVersion_of _ hvalid.manifest,
    requireFiles_of hdir fun name hname => h.isSome_of_required (hvalid.files name hname),
    readFile_of_holds hdir h.progress, readFile_of_holds hdir h.scheduler,
    readFile_of_holds hdir h.optimizer, readFile_of_holds hdir h.rng,
    readFile_of_holds hdir h.dataset]
  dsimp only
  rw [expectVersion_of _ hvalid.progress, expectVersion_of _ hvalid.scheduler,
    expectVersion_of _ hvalid.optimizer, expectVersion_of _ hvalid.rng,
    expectVersion_of _ hvalid.dataset, hvalid.slots, requireFiles_of hdir h.payloads,
    readArtifacts_of hdir hvalid.artifacts h.artifacts]
  rfl

/-- And its optimizer payload is opened. -/
theorem Complete.openOptimizerState {stem : String} (h : Complete codecs content checkpoint)
    (hdir : disk (readableStateDir disk stem) = .dir content)
    (hstate : 0 < checkpoint.optimizer.stateBytes) :
    ∃ bytes, content.files optimizerStateFile = some bytes ∧
      openOptimizerState disk stem checkpoint.optimizer = .ok bytes := by
  obtain ⟨bytes, hbytes, hlength⟩ := h.optimizerState hstate
  refine ⟨bytes, hbytes, ?_⟩
  unfold Checkpoints.openOptimizerState
  dsimp only
  rw [fileAt, hdir]
  dsimp only
  rw [hbytes]
  exact if_neg (not_not.mpr hlength)

end Read

/-! ### Staging -/

/-- A manifest as it is written: what its bundle turned out to be is filled in. -/
def Manifest.FilledIn (manifest written : Manifest) : Prop :=
  written = { manifest with trainable := written.trainable } ∧
    written.trainable.map (fun bundle => (bundle.file, bundle.fields)) =
      manifest.trainable.map fun bundle => (bundle.file, bundle.fields)

/-- The bundle's size and fingerprint are those of its file. -/
def Manifest.Measures (codecs : Codecs) (written : Manifest) (content : Dir) : Prop :=
  ∀ bundle, written.trainable = some bundle → ∃ bytes,
    content.files bundle.file = some bytes ∧ bundle.bytes = bytes.length ∧
      bundle.fingerprint = codecs.fingerprint bytes

/-- The files `write_into` encodes itself. -/
def recordFiles : List String := manifestFile :: requiredFiles

/-- What one write makes of the temporary directory: its checkpoint, with the files its own payload
writer left. -/
structure Brought (codecs : Codecs) (checkpoint : Checkpoint) (payloads : Payloads)
    (written : Manifest) (content : Dir) : Prop where
  filledIn : checkpoint.manifest.FilledIn written
  complete : Complete codecs content { checkpoint with manifest := written }
  payloads : ∃ start made, payloads start = .ok made ∧
    ∀ name, name ∉ recordFiles → content.files name = made.files name
  /-- A bundle written over by the manifest would be no bundle. -/
  measures : (∀ bundle, written.trainable = some bundle → bundle.file ≠ manifestFile) →
    written.Measures codecs content

/-- What a checkpoint and its payload writer have to promise for a write to go through. -/
structure Provides (codecs : Codecs) (checkpoint : Checkpoint) (payloads : Payloads) : Prop where
  manifest : ∀ trainable,
    (codecs.manifest.encode { checkpoint.manifest with trainable }).isSome
  progress : (codecs.progress.encode checkpoint.progress).isSome
  scheduler : (codecs.scheduler.encode checkpoint.scheduler).isSome
  optimizer : (codecs.optimizer.encode checkpoint.optimizer).isSome
  rng : (codecs.rng.encode checkpoint.rng).isSome
  dataset : (codecs.dataset.encode checkpoint.dataset).isSome
  payloads : ∀ content, ∃ content', payloads content = .ok content' ∧
    (∀ name ∈ payloadFiles checkpoint.manifest checkpoint.optimizer,
      (content'.files name).isSome) ∧
    (0 < checkpoint.optimizer.stateBytes → ∃ bytes,
      content'.files optimizerStateFile = some bytes ∧
        bytes.length = checkpoint.optimizer.stateBytes)

section Dirs

variable (content : Dir) (name : String) (bytes : Bytes)

@[simp] theorem Dir.files_put_self : (content.put name bytes).files name = some bytes :=
  update_self ..

variable {other : String}

theorem Dir.files_put_of_ne (h : other ≠ name) :
    (content.put name bytes).files other = content.files other := update_of_ne h ..

theorem Dir.isSome_put (h : (content.files other).isSome) :
    ((content.put name bytes).files other).isSome := by
  by_cases heq : other = name
  · rw [heq, Dir.files_put_self, isSome_some]
  · rwa [Dir.files_put_of_ne _ _ _ heq]

variable {content name bytes}

theorem Dir.Holds.put {α : Type} {codec : Codec α} {value : α}
    (h : codec.decode bytes = some value) : (content.put name bytes).Holds codec name value :=
  ⟨bytes, Dir.files_put_self .., h⟩

theorem Dir.Holds.put_of_ne {α : Type} {codec : Codec α} {value : α}
    (h : content.Holds codec other value) (hne : other ≠ name) :
    (content.put name bytes).Holds codec other value := by
  obtain ⟨bytes', hbytes, hvalue⟩ := h
  exact ⟨bytes', (Dir.files_put_of_ne _ _ _ hne).trans hbytes, hvalue⟩

theorem Dir.Holds.congr {α : Type} {codec : Codec α} {value : α} {content' : Dir}
    (h : content.Holds codec name value) (hfiles : content'.files = content.files) :
    content'.Holds codec name value := by
  unfold Dir.Holds at h ⊢
  rwa [hfiles]

end Dirs

section Stage

variable {quiet : Prop} {dir : String} {content : Dir} {world : World String Dir Checkpoint}

/-- The temporary directory, as far as it has got; nothing stops a quiet write. -/
structure Staged (quiet : Prop) (dir : String) (content : Dir)
    (world : World String Dir Checkpoint) : Prop where
  here : world.disk dir = .dir content
  calm : quiet → world.fates = []

variable {Q : Unit → World String Dir Checkpoint → Prop}

theorem Staged.writeIn (h : Staged quiet dir content world) {change : Dir → Dir}
    (hQ : ∀ world', Staged quiet dir (change content) world' → Q () world') :
    wp (writeIn dir change : WriteM Unit) Q (fun _ _ => ¬ quiet) world := by
  refine wp_operation (fun disk hdisk => hQ _ ⟨?_, fun hquiet => ?_⟩) (fun hnone => ?_)
    fun _ _ _ _ _ hfates hquiet => hfates (h.calm hquiet)
  · rw [h.here] at hdisk
    cases hdisk
    exact update_self ..
  · show world.fates.tail = []
    rw [h.calm hquiet, tail_nil]
  · rw [h.here] at hnone
    cases hnone

theorem Staged.look (h : Staged quiet dir content world) {present : Dir → Bool}
    (hgood : quiet → present content)
    (hQ : present content → ∀ world', Staged quiet dir content world' → Q () world') :
    wp (look dir present : WriteM Unit) Q (fun _ _ => ¬ quiet) world := by
  refine wp_operation (fun disk hdisk => ?_) (fun hnone hquiet => ?_)
    fun _ _ _ _ _ hfates hquiet => hfates (h.calm hquiet)
  · rw [h.here] at hdisk
    dsimp only at hdisk
    split at hdisk
    · next hpresent =>
      cases hdisk
      refine hQ hpresent _ ⟨h.here, fun hquiet => ?_⟩
      show world.fates.tail = []
      rw [h.calm hquiet, tail_nil]
    · cases hdisk
  · rw [h.here] at hnone
    dsimp only at hnone
    rw [if_pos (hgood hquiet)] at hnone
    cases hnone

theorem Staged.writeRecord (h : Staged quiet dir content world) {α : Type} {codec : Codec α}
    {name what : String} {value : α} (hgood : quiet → (codec.encode value).isSome)
    (hQ : ∀ bytes, codec.decode bytes = some value → ∀ world', Staged quiet dir (content.put name bytes) world' → Q () world') :
    wp (writeRecord codec dir name what value) Q (fun _ _ => ¬ quiet) world := by
  unfold Checkpoints.writeRecord encode
  cases hencode : codec.encode value with
  | none =>
    rw [wp_bind, wp_refuse]
    intro hquiet
    have := hgood hquiet
    simp [hencode] at this
  | some bytes =>
    rw [wp_bind, wp_pure]
    exact h.writeIn fun world' hstaged =>
      hQ bytes (codec.decode_encode value bytes hencode) world' hstaged

theorem fileAt_of_staged (h : Staged quiet dir content world) (name : String) :
    fileAt world.disk dir name = content.files name := by
  rw [fileAt, h.here]

theorem Staged.requirePayloads (h : Staged quiet dir content world)
    {names : List (Option String × String)}
    (hgood : quiet → ∀ name what, (some name, what) ∈ names → (content.files name).isSome) :
    wp (requirePayloads dir names) (fun _ world' => world' = world ∧
      ∀ name what, (some name, what) ∈ names → (content.files name).isSome)
      (fun _ _ => ¬ quiet) world := by
  induction names with
  | nil => exact ⟨rfl, fun _ _ hmem => absurd hmem not_mem_nil⟩
  | cons entry names ih =>
    have ih := ih fun hquiet name what hmem => hgood hquiet name what (mem_cons_of_mem _ hmem)
    obtain ⟨name, what⟩ := entry
    show wp (_ >>= fun _ => Checkpoints.requirePayloads dir names) _ _ _
    rw [wp_bind]
    cases name with
    | none =>
      show wp (Checkpoints.requirePayloads dir names) _ _ _
      refine wp_mono ih ?_ fun _ _ h => h
      rintro _ world' ⟨rfl, hall⟩
      refine ⟨rfl, fun name what' hmem => ?_⟩
      rcases mem_cons.mp hmem with heq | hmem
      · cases heq
      · exact hall name what' hmem
    | some name =>
      show wp (disk >>= _) _ _ _
      rw [wp_bind, wp_disk, fileAt_of_staged h]
      by_cases hpresent : (content.files name).isSome
      · rw [if_neg (by simp [hpresent])]
        show wp (Checkpoints.requirePayloads dir names) _ _ _
        refine wp_mono ih ?_ fun _ _ h => h
        rintro _ world' ⟨rfl, hall⟩
        refine ⟨rfl, fun name' what' hmem => ?_⟩
        rcases mem_cons.mp hmem with heq | hmem
        · cases heq
          exact hpresent
        · exact hall name' what' hmem
      · rw [if_pos (by simpa using hpresent)]
        exact fun hquiet => hpresent (hgood hquiet name what mem_cons_self)

theorem Staged.lengthOf (h : Staged quiet dir content world) {name : String}
    {Q : ℕ → World String Dir Checkpoint → Prop} (hgood : quiet → (content.files name).isSome)
    (hQ : ∀ bytes, content.files name = some bytes →
      ∀ world', Staged quiet dir content world' → Q bytes.length world') :
    wp (lengthOf dir name) Q (fun _ _ => ¬ quiet) world := by
  unfold Checkpoints.lengthOf
  rw [wp_bind]
  refine h.look hgood fun hpresent world' hstaged => ?_
  obtain ⟨bytes, hbytes⟩ := isSome_iff_exists.mp hpresent
  rw [wp_bind, wp_disk, wp_pure, fileAt_of_staged hstaged, hbytes]
  exact hQ bytes hbytes world' hstaged

theorem Staged.requireStateBytes (h : Staged quiet dir content world) {optimizer : Optimizer}
    (hgood : quiet → 0 < optimizer.stateBytes → ∃ bytes, content.files optimizerStateFile = some bytes ∧ bytes.length = optimizer.stateBytes)
    (hQ : (0 < optimizer.stateBytes → ∃ bytes, content.files optimizerStateFile = some bytes ∧ bytes.length = optimizer.stateBytes) → ∀ world', Staged quiet dir content world' → Q () world') :
    wp (requireStateBytes dir optimizer) Q (fun _ _ => ¬ quiet) world := by
  unfold Checkpoints.requireStateBytes
  split
  · next hpos =>
    rw [wp_bind]
    refine h.lengthOf (fun hquiet => ?_) fun bytes hbytes world' hstaged => ?_
    · obtain ⟨bytes, hbytes, -⟩ := hgood hquiet hpos
      rw [hbytes, isSome_some]
    · split
      · next hne =>
        intro hquiet
        obtain ⟨bytes', hbytes', hlength⟩ := hgood hquiet hpos
        obtain rfl : bytes = bytes' := some.inj (hbytes.symm.trans hbytes')
        exact hne hlength
      · next heq => exact hQ (fun _ => ⟨bytes, hbytes, not_not.mp heq⟩) world' hstaged
  · next hpos => exact hQ (fun h => absurd h hpos) world h

theorem Staged.measured (h : Staged quiet dir content world) {codecs : Codecs}
    {manifest : Manifest} {Q : Manifest → World String Dir Checkpoint → Prop}
    (hgood : quiet → ∀ bundle, manifest.trainable = some bundle →
      (content.files bundle.file).isSome)
    (hQ : ∀ written, manifest.FilledIn written → written.Measures codecs content →
      ∀ world', Staged quiet dir content world' → Q written world') :
    wp (measured codecs manifest dir) Q (fun _ _ => ¬ quiet) world := by
  unfold Checkpoints.measured
  split
  · next hnone =>
    exact hQ manifest ⟨rfl, rfl⟩ (fun bundle hbundle => by rw [hnone] at hbundle; cases hbundle)
      world h
  · next bundle hbundle =>
    rw [wp_bind]
    refine h.lengthOf (fun hquiet => hgood hquiet bundle hbundle) fun bytes hbytes world' hstaged => ?_
    rw [wp_bind]
    refine hstaged.look (fun hquiet => hgood hquiet bundle hbundle) fun _ world'' hstaged' => ?_
    rw [wp_bind, wp_disk, wp_pure, fileAt_of_staged hstaged', hbytes]
    refine hQ _ ⟨rfl, by rw [hbundle]; rfl⟩ (fun bundle' hbundle' => ?_) world'' hstaged'
    obtain rfl := some.inj hbundle'
    exact ⟨bytes, hbytes, rfl, rfl⟩

/-- Every artifact is written, and no file. -/
theorem Staged.artifacts (h : Staged quiet dir content world) {artifacts : List (String × Bytes)}
    (hdistinct : (artifacts.map Prod.fst).Nodup)
    (hQ : ∀ content', content'.files = content.files → (∀ entry ∈ artifacts, content'.artifacts entry.1 = some entry.2) → ∀ world', Staged quiet dir content' world' → Q () world') :
    wp (artifacts.forM fun (name, bytes) =>
      Logic.writeIn dir fun content => content.putArtifact name bytes : WriteM Unit) Q
      (fun _ _ => ¬ quiet) world := by
  -- those still to be written are other ones than those written
  have hloop := wp_forM_list (E := fun (_ : Stop Error) (_ : World String Dir Checkpoint) => ¬ quiet)
    (f := fun (entry : String × Bytes) =>
      (Logic.writeIn dir fun content => content.putArtifact entry.1 entry.2 : WriteM Unit))
    (I := fun rest world' => ∃ content', Staged quiet dir content' world' ∧
      content'.files = content.files ∧ (rest.map Prod.fst).Nodup ∧
      ∀ entry ∈ artifacts, entry ∈ rest ∨ entry.1 ∉ rest.map Prod.fst ∧
        content'.artifacts entry.1 = some entry.2)
    (s := world) (l := artifacts) ?_
    ⟨content, h, rfl, hdistinct, fun entry hentry => .inl hentry⟩
  · refine wp_mono hloop ?_ fun _ _ h => h
    rintro ⟨⟩ world' ⟨content', hstaged, hfiles, -, hall⟩
    refine hQ content' hfiles (fun entry hentry => ?_) world' hstaged
    rcases hall entry hentry with hnil | ⟨-, hwritten⟩
    · cases hnil
    · exact hwritten
  · rintro ⟨name, bytes⟩ rest world' ⟨content', hstaged, hfiles, hnodup, hall⟩
    rw [map_cons, nodup_cons] at hnodup
    refine hstaged.writeIn fun world'' hstaged' => ⟨_, hstaged', hfiles, hnodup.2, ?_⟩
    intro entry hentry
    rcases hall entry hentry with hmem | ⟨hfree, hwritten⟩
    · rcases mem_cons.mp hmem with rfl | hmem
      · exact .inr ⟨hnodup.1, update_self ..⟩
      · exact .inl hmem
    · rw [map_cons, mem_cons, not_or] at hfree
      exact .inr ⟨hfree.2, (update_of_ne hfree.1 ..).trans hwritten⟩

end Stage

section WriteInto

variable {codecs : Codecs} {checkpoint : Checkpoint} {payloads : Payloads} {dir : String}
  {world : World String Dir Checkpoint}

/-- Nothing stops a write: the operations all work, and what it is given can be written. -/
structure Quiet (codecs : Codecs) (checkpoint : Checkpoint) (payloads : Payloads) (dir : String)
    (world : World String Dir Checkpoint) : Prop where
  fates : world.fates = []
  free : world.disk dir ≠ .file
  provides : Provides codecs checkpoint payloads

variable {Q : Unit → World String Dir Checkpoint → Prop}

/-- The temporary directory is emptied, if it can be, and is there. -/
theorem wp_prepare {quiet : Prop} (hquiet : quiet → world.fates = [] ∧ world.disk dir ≠ .file)
    (hQ : ∀ content world', Staged quiet dir content world' → Q () world') :
    wp (attempt (removeDirAll dir) >>= fun _ => createDirAll Dir.empty dir : WriteM Unit) Q
      (fun _ _ => ¬ quiet) world := by
  have hcreate (world' : World String Dir Checkpoint)
      (hcalm : quiet → world'.fates = [] ∧ world'.disk dir ≠ .file) :
      wp (createDirAll Dir.empty dir : WriteM Unit) Q (fun _ _ => ¬ quiet) world' := by
    refine wp_operation (fun disk hdisk => ?_) (fun hnone h => ?_)
      fun _ _ _ _ _ hfates h => hfates (hcalm h).1
    · have htail : quiet → world'.fates.tail = [] := fun h => by rw [(hcalm h).1, tail_nil]
      split at hdisk <;> cases hdisk
      · exact hQ Dir.empty _ ⟨update_self .., htail⟩
      · next content hcontent => exact hQ content _ ⟨hcontent, htail⟩
    · split at hnone
      · cases hnone
      · cases hnone
      · next hfile => exact (hcalm h).2 hfile
  have htail : quiet → world.fates.tail = [] := fun h => by rw [(hquiet h).1, tail_nil]
  rw [wp_bind]
  refine wp_attempt (wp_operation (fun disk hdisk => hcreate _ fun h => ⟨htail h, ?_⟩)
    (fun _ => ⟨nofun, fun _ => hcreate _ fun h => ⟨htail h, (hquiet h).2⟩⟩)
    fun stop disk fates _ _ hfates => ⟨fun _ h => hfates (hquiet h).1,
      fun _ => hcreate _ fun h => absurd (hquiet h).1 hfates⟩)
  split at hdisk
  · cases hdisk
    show setEntry world.disk dir .missing dir ≠ .file
    rw [setEntry, update_self]
    nofun
  · cases hdisk

theorem payloadFiles_filledIn {written : Manifest} (h : checkpoint.manifest.FilledIn written)
    (optimizer : Optimizer) :
    payloadFiles written optimizer = payloadFiles checkpoint.manifest optimizer := by
  obtain ⟨hwritten, hbundle⟩ := h
  have hfile := congrArg (Option.map Prod.fst) hbundle
  simp only [Option.map_map] at hfile
  have hadapter : written.adapter = checkpoint.manifest.adapter := by rw [hwritten]
  unfold payloadFiles
  rw [hadapter]
  exact congrArg (fun file => checkpoint.manifest.adapter.toList ++ Option.toList file ++
    (if 0 < optimizer.stateBytes then [optimizerStateFile] else [])) hfile

theorem Checkpoint.Valid.filledIn (h : checkpoint.Valid) {written : Manifest}
    (hwritten : checkpoint.manifest.FilledIn written) :
    ({ checkpoint with manifest := written } : Checkpoint).Valid := by
  obtain ⟨hwritten, -⟩ := hwritten
  have hversion : written.formatVersion = checkpoint.manifest.formatVersion := by rw [hwritten]
  have hfiles : written.files = checkpoint.manifest.files := by rw [hwritten]
  have hartifacts : written.artifacts = checkpoint.manifest.artifacts := by rw [hwritten]
  exact { h with
    manifest := hversion.trans h.manifest
    files := hfiles ▸ h.files
    artifacts := (congrArg (List.map Prod.fst) hartifacts).trans h.artifacts }

/-- The files that are declared are the payload files. -/
theorem mem_declared {name what : String} {manifest : Manifest} {optimizer : Optimizer}
    (h : (some name, what) ∈ [(manifest.adapter, "adapter"),
      (manifest.trainable.map TrainableBundle.file, "trainable bundle"),
      (if 0 < optimizer.stateBytes then some optimizerStateFile else none, "optimizer state")]) :
    name ∈ payloadFiles manifest optimizer := by
  simp only [mem_cons, not_mem_nil, or_false, Prod.mk.injEq] at h
  unfold payloadFiles
  simp only [mem_append, mem_toList]
  rcases h with ⟨h, -⟩ | ⟨h, -⟩ | ⟨h, -⟩
  · exact .inl (.inl h.symm)
  · exact .inl (.inr h.symm)
  · split at h
    · next hpos =>
      obtain rfl : name = optimizerStateFile := some.inj h
      exact .inr (by simp [hpos])
    · cases h

theorem declared_of_mem {name : String} {manifest : Manifest} {optimizer : Optimizer}
    (h : name ∈ payloadFiles manifest optimizer) :
    ∃ what, (some name, what) ∈ [(manifest.adapter, "adapter"),
      (manifest.trainable.map TrainableBundle.file, "trainable bundle"),
      (if 0 < optimizer.stateBytes then some optimizerStateFile else none, "optimizer state")] := by
  unfold payloadFiles at h
  simp only [mem_append, mem_toList] at h
  rcases h with (h | h) | h
  · exact ⟨"adapter", by simp [h]⟩
  · exact ⟨"trainable bundle", by simp [h]⟩
  · split at h
    · next hpos =>
      obtain rfl : name = optimizerStateFile := mem_singleton.mp h
      exact ⟨"optimizer state", by simp [hpos]⟩
    · cases h

/-- The payload writer leaves what is declared, or the write stops. -/
theorem Staged.writePayloads {quiet : Prop} {content : Dir} {world' : World String Dir Checkpoint}
    (h : Staged quiet dir content world') (hquiet : quiet → Provides codecs checkpoint payloads)
    (hQ : ∀ made world', Staged quiet dir made world' → payloads content = .ok made → (quiet → (∀ name ∈ payloadFiles checkpoint.manifest checkpoint.optimizer, (made.files name).isSome) ∧ (0 < checkpoint.optimizer.stateBytes → ∃ bytes, made.files optimizerStateFile = some bytes ∧ bytes.length = checkpoint.optimizer.stateBytes)) → Q () world') :
    wp (Checkpoints.writePayloads payloads dir) Q (fun _ _ => ¬ quiet) world' := by
  unfold Checkpoints.writePayloads
  rw [wp_bind, wp_disk, h.here]
  dsimp only
  cases hpayloads : payloads content with
  | error message =>
    intro hq
    obtain ⟨content', hok, -⟩ := (hquiet hq).payloads content
    rw [hpayloads] at hok
    cases hok
  | ok content' =>
    refine h.writeIn fun world'' hstaged => hQ _ _ hstaged hpayloads fun hq => ?_
    obtain ⟨content'', hok, hspec⟩ := (hquiet hq).payloads content
    rw [hpayloads] at hok
    cases hok
    exact hspec

theorem writeInto_spec (hvalid : checkpoint.Valid) :
    wp (writeInto codecs checkpoint payloads dir)
      (fun manifest world' => (Quiet codecs checkpoint payloads dir world → world'.fates = []) ∧
        ∃ content, world'.disk dir = .dir content ∧
          Brought codecs checkpoint payloads manifest content)
      (fun _ _ => ¬ Quiet codecs checkpoint payloads dir world) world := by
  unfold writeInto
  dsimp only
  generalize hquiet : Quiet codecs checkpoint payloads dir world = quiet
  have hfree : quiet → world.fates = [] ∧ world.disk dir ≠ .file :=
    fun h => ⟨(hquiet ▸ h : Quiet _ _ _ _ _).fates, (hquiet ▸ h : Quiet _ _ _ _ _).free⟩
  have hprovides : quiet → Provides codecs checkpoint payloads :=
    fun h => (hquiet ▸ h : Quiet _ _ _ _ _).provides
  have hprepare := wp_prepare hfree (Q := fun _ world' => ∃ content, Staged quiet dir content world')
    fun content world' hstaged => ⟨content, hstaged⟩
  rw [wp_bind] at hprepare
  rw [wp_bind]
  refine wp_mono hprepare (fun _ world' h => ?_) fun _ _ h => h
  rw [wp_bind]
  refine wp_mono h (fun _ world' h => ?_) fun _ _ h => h
  obtain ⟨start, hstaged⟩ := h
  rw [wp_bind]
  refine hstaged.writePayloads hprovides fun content world' hstaged hmade hpayloads => ?_
  rw [wp_bind]
  refine wp_mono (hstaged.requirePayloads fun hq name what hmem =>
    (hpayloads hq).1 name (mem_declared hmem)) ?_ fun _ _ h => h
  rintro _ world' ⟨rfl, hdeclared⟩
  have hfiles : ∀ name ∈ payloadFiles checkpoint.manifest checkpoint.optimizer,
      (content.files name).isSome := fun name hname => by
    obtain ⟨what, hmem⟩ := declared_of_mem hname
    exact hdeclared name what hmem
  rw [wp_bind]
  refine hstaged.requireStateBytes (fun hq => (hpayloads hq).2) fun hstate world' hstaged => ?_
  -- the records
  rw [wp_bind]
  refine hstaged.writeRecord (fun hq => (hprovides hq).progress) fun progress hprogress world' hstaged => ?_
  rw [wp_bind]
  refine hstaged.writeRecord (fun hq => (hprovides hq).scheduler) fun scheduler hscheduler world' hstaged => ?_
  rw [wp_bind]
  refine hstaged.writeRecord (fun hq => (hprovides hq).optimizer) fun optimizer hoptimizer world' hstaged => ?_
  rw [wp_bind]
  refine hstaged.writeRecord (fun hq => (hprovides hq).rng) fun rng hrng world' hstaged => ?_
  rw [wp_bind]
  refine hstaged.writeRecord (fun hq => (hprovides hq).dataset) fun dataset hdataset world' hstaged => ?_
  generalize hrecords : ((((content.put progressFile progress).put schedulerFile scheduler).put
    optimizerFile optimizer).put rngFile rng).put datasetFile dataset = records at hstaged
  have hpresent {name : String} (h : (content.files name).isSome) :
      (records.files name).isSome := by
    rw [← hrecords]
    exact Dir.isSome_put _ _ _ (Dir.isSome_put _ _ _ (Dir.isSome_put _ _ _ (Dir.isSome_put _ _ _
      (Dir.isSome_put _ _ _ h))))
  have hkept {name : String} (h : name ∉ recordFiles) :
      records.files name = content.files name := by
    simp only [recordFiles, requiredFiles, mem_cons, not_mem_nil, or_false, not_or] at h
    obtain ⟨-, hprogress, hscheduler, hoptimizer, hrng, hdataset⟩ := h
    rw [← hrecords]
    simp only [Dir.files_put_of_ne _ _ _ hdataset, Dir.files_put_of_ne _ _ _ hrng,
      Dir.files_put_of_ne _ _ _ hoptimizer, Dir.files_put_of_ne _ _ _ hscheduler,
      Dir.files_put_of_ne _ _ _ hprogress]
  have hholds : records.Holds codecs.progress progressFile checkpoint.progress ∧
      records.Holds codecs.scheduler schedulerFile checkpoint.scheduler ∧
      records.Holds codecs.optimizer optimizerFile checkpoint.optimizer ∧
      records.Holds codecs.rng rngFile checkpoint.rng ∧
      records.Holds codecs.dataset datasetFile checkpoint.dataset := by
    rw [← hrecords]
    refine ⟨?_, ?_, ?_, ?_, .put hdataset⟩
    · exact (((((Dir.Holds.put hprogress).put_of_ne (by decide)).put_of_ne (by decide)).put_of_ne
        (by decide)).put_of_ne (by decide))
    · exact ((((Dir.Holds.put hscheduler).put_of_ne (by decide)).put_of_ne (by decide)).put_of_ne
        (by decide))
    · exact (((Dir.Holds.put hoptimizer).put_of_ne (by decide)).put_of_ne (by decide))
    · exact (Dir.Holds.put hrng).put_of_ne (by decide)
  -- the artifacts and the manifest
  have hlast (world' : World String Dir Checkpoint) (hstaged : Staged quiet dir records world') :
      wp (do
        checkpoint.artifacts.forM fun (name, bytes) =>
          writeIn dir fun content => content.putArtifact name bytes
        let manifest ← measured codecs checkpoint.manifest dir
        writeRecord codecs.manifest dir manifestFile "manifest" manifest
        pure manifest : WriteM Manifest)
        (fun manifest world' => (quiet → world'.fates = []) ∧
          ∃ content, world'.disk dir = .dir content ∧
            Brought codecs checkpoint payloads manifest content)
        (fun _ _ => ¬ quiet) world' := by
    rw [wp_bind]
    refine hstaged.artifacts hvalid.distinct fun content' hfiles' hartifacts world' hstaged => ?_
    have hpresent' {name : String} (h : (content.files name).isSome) :
        (content'.files name).isSome := by
      rw [hfiles']
      exact hpresent h
    rw [wp_bind]
    refine hstaged.measured (fun _ bundle hbundle => hpresent' (hfiles _ ?_))
      fun written hwritten hmeasures world' hstaged => ?_
    · simp [payloadFiles, hbundle]
    rw [wp_bind]
    refine hstaged.writeRecord (fun hq => ?_) fun manifest hmanifest world' hstaged => ?_
    · rw [hwritten.1]
      exact (hprovides hq).manifest _
    obtain ⟨hprogress, hscheduler, hoptimizer, hrng, hdataset⟩ := hholds
    have hcomplete : Complete codecs (content'.put manifestFile manifest)
        { checkpoint with manifest := written } := {
      valid := hvalid.filledIn hwritten
      manifest := .put hmanifest
      progress := (hprogress.congr hfiles').put_of_ne (by decide)
      scheduler := (hscheduler.congr hfiles').put_of_ne (by decide)
      optimizer := (hoptimizer.congr hfiles').put_of_ne (by decide)
      rng := (hrng.congr hfiles').put_of_ne (by decide)
      dataset := (hdataset.congr hfiles').put_of_ne (by decide)
      payloads := fun name hname => Dir.isSome_put _ _ _ (hpresent' (hfiles name (by
        rwa [← payloadFiles_filledIn hwritten])))
      optimizerState := fun hpos => by
        obtain ⟨bytes, hbytes, hlength⟩ := hstate hpos
        refine ⟨bytes, ?_, hlength⟩
        rw [Dir.files_put_of_ne _ _ _ (by decide), hfiles', hkept (by decide), hbytes]
      artifacts := hartifacts }
    refine ⟨hstaged.calm, _, hstaged.here, {
      filledIn := hwritten
      complete := hcomplete
      payloads := ⟨start, content, hmade, fun name hname => ?_⟩
      measures := fun hfree bundle hbundle => ?_ }⟩
    · have hne : name ≠ manifestFile := by
        rintro rfl
        exact hname mem_cons_self
      rw [Dir.files_put_of_ne _ _ _ hne, hfiles', hkept hname]
    · obtain ⟨bytes, hbytes, hmeasured⟩ := hmeasures bundle hbundle
      exact ⟨bytes, (Dir.files_put_of_ne _ _ _ (hfree bundle hbundle)).trans hbytes, hmeasured⟩
  split
  · exact hlast world' hstaged
  · rw [wp_bind]
    exact hstaged.look (fun _ => rfl) fun _ world' hstaged => hlast world' hstaged

theorem lengthOf_confined (name : String) : Confined (· = dir) (lengthOf dir name) :=
  .bind .look fun _ => .bind .disk fun _ => .pure _

theorem writeRecord_confined {α : Type} (codec : Codec α) (name what : String) (value : α) :
    Confined (· = dir) (writeRecord codec dir name what value) := by
  refine .bind ?_ fun bytes => .writeIn _ rfl
  unfold encode
  split
  · exact .pure _
  · exact .refuse _

theorem writePayloads_confined : Confined (· = dir) (writePayloads payloads dir) := by
  refine .bind .disk fun disk => ?_
  split
  · split
    · exact .writeIn _ rfl
    · exact .refuse _
  · exact .refuse _

theorem requirePayloads_confined (names : List (Option String × String)) :
    Confined (· = dir) (requirePayloads dir names) := by
  refine .forM fun ⟨name, what⟩ _ => ?_
  cases name with
  | none => exact .pure _
  | some name =>
    refine .bind .disk fun disk => ?_
    split
    · exact .refuse _
    · exact .pure _

theorem requireStateBytes_confined (optimizer : Optimizer) :
    Confined (· = dir) (requireStateBytes dir optimizer) := by
  unfold requireStateBytes
  split
  · refine .bind (lengthOf_confined _) fun written => ?_
    split
    · exact .refuse _
    · exact .pure _
  · exact .pure _

theorem measured_confined (manifest : Manifest) :
    Confined (· = dir) (measured codecs manifest dir) := by
  unfold measured
  split
  · exact .pure _
  · exact .bind (lengthOf_confined _) fun _ => .bind .look fun _ => .bind .disk fun _ => .pure _

/-- `write_into` touches the temporary directory only. -/
theorem writeInto_confined :
    Confined (· = dir) (writeInto codecs checkpoint payloads dir) := by
  have hrest : Confined (· = dir) (do
      checkpoint.artifacts.forM fun (name, bytes) =>
        writeIn dir fun content => content.putArtifact name bytes
      let manifest ← measured codecs checkpoint.manifest dir
      writeRecord codecs.manifest dir manifestFile "manifest" manifest
      pure manifest : WriteM Manifest) :=
    .bind (.forM fun _ _ => .writeIn _ rfl) fun _ => .bind (measured_confined _) fun _ =>
      .bind (writeRecord_confined _ _ _ _) fun _ => .pure _
  unfold writeInto
  refine .bind (.attempt (.removeDirAll rfl)) fun _ => .bind (.createDirAll rfl) fun _ =>
    .bind writePayloads_confined fun _ => .bind (requirePayloads_confined _) fun _ =>
    .bind (requireStateBytes_confined _) fun _ => .bind (writeRecord_confined _ _ _ _) fun _ =>
    .bind (writeRecord_confined _ _ _ _) fun _ => .bind (writeRecord_confined _ _ _ _) fun _ =>
    .bind (writeRecord_confined _ _ _ _) fun _ => .bind (writeRecord_confined _ _ _ _) fun _ => ?_
  split
  · exact hrest
  · exact .bind .look fun _ => hrest

end WriteInto

end Retrograd.Checkpoints
