import Retrograd.Checkpoints.Replace

/-!
# Any number of writes

A run is a list of writes to one state directory, each with the fates of its operations: completed,
failed or cut anywhere. **From the first write that returned on, a reader finds the checkpoint that
was published last, whole** (`reads_announced`), and a write nothing hinders returns. What a resume
finds by listing the directory is another matter: `latest_checkpoint` finds a checkpoint exactly
when one stands under its own name.
-/

namespace Retrograd.Checkpoints

open Logic List

/-! ### One write -/

section Write

variable {codecs : Codecs} {stem token : String} {checkpoint : Checkpoint} {payloads : Payloads}
  {world : World String Dir Checkpoint}

/-- Nothing hinders a write: its operations work, its payloads are what it declares, and no
directory or file of others has its names. -/
structure Unhindered (codecs : Codecs) (stem token : String) (checkpoint : Checkpoint)
    (payloads : Payloads) (world : World String Dir Checkpoint) : Prop where
  quiet : Quiet codecs checkpoint payloads (temporaryDir stem token) world
  copied : ∀ content, world.disk (temporaryExport stem token) ≠ .dir content
  exported : ∀ content, world.disk (exportFile stem) ≠ .dir content

/-- What a write leaves, however it ends, once it has replaced the checkpoint. -/
def Wrote (codecs : Codecs) (stem : String) (checkpoint : Checkpoint) (payloads : Payloads)
    (world world' : World String Dir Checkpoint) : Prop :=
  ∃ manifest content, Brought codecs checkpoint payloads manifest content ∧
    Replaced stem { checkpoint with manifest } content world world'

theorem exportAdapter_confined (adapter : String) :
    Confined (fun name => name = temporaryExport stem token ∨ name = exportFile stem)
      (exportAdapter stem token adapter) := by
  refine .bind (.copyOut (.inl rfl)) fun _ => .bind .disk fun disk => ?_
  split
  · exact .bind (.removeFile (.inr rfl)) fun _ => .rename (.inl rfl) (.inr rfl)
  · exact .rename (.inl rfl) (.inr rfl)

/-- Nothing hindering it, the adapter is exported. -/
theorem exportAdapter_returns {adapter : String} {content : Dir} (hfates : world.fates = [])
    (hhere : world.disk (stateDir stem) = .dir content) (hfile : content.isFile adapter)
    (hcopied : ∀ content, world.disk (temporaryExport stem token) ≠ .dir content)
    (hexported : ∀ content, world.disk (exportFile stem) ≠ .dir content) :
    wp (exportAdapter stem token adapter) (fun _ _ => True) (fun _ _ => False) world := by
  have hne := temporaryExport_ne_exportFile stem token
  unfold exportAdapter
  rw [wp_bind]
  refine wp_operation (fun copied hcopy => ?_) (fun hnone => ?_)
    fun _ _ _ _ _ hstops => hstops hfates
  · obtain rfl : setEntry world.disk (temporaryExport stem token) .file = copied := by
      rw [hhere] at hcopy
      cases hentry : world.disk (temporaryExport stem token) with
      | missing | file =>
        rw [hentry] at hcopy
        dsimp only at hcopy
        rw [if_pos hfile] at hcopy
        exact Option.some.inj hcopy
      | dir content => exact absurd hentry (hcopied content)
    have htail : world.fates.tail = [] := by rw [hfates, tail_nil]
    have hexport := @setEntry_of_ne _ _ _ world.disk _ _ .file hne.symm
    -- the copy is a file, and nothing but a file is in its way
    have hmove (world₁ : World String Dir Checkpoint) (hcalm : world₁.fates = [])
        (hcopy : world₁.disk (temporaryExport stem token) = .file)
        (hfree : world₁.disk (exportFile stem) = .missing) :
        wp (rename (temporaryExport stem token) (exportFile stem) : WriteM Unit) (fun _ _ => True)
          (fun _ _ => False) world₁ := by
      refine wp_rename (fun _ _ => trivial) fun _ _ hstops => ?_
      rcases hstops with hstops | hstops | hstops
      · exact hstops hcalm
      · rw [hcopy] at hstops
        cases hstops
      · exact hstops hfree
    rw [wp_bind, wp_disk]
    dsimp only
    split
    · next hpresent =>
      rw [hexport] at hpresent
      have hfile : world.disk (exportFile stem) = .file := by
        cases hentry : world.disk (exportFile stem) with
        | missing =>
          rw [hentry] at hpresent
          cases hpresent
        | file => rfl
        | dir content => exact absurd hentry (hexported content)
      rw [wp_bind]
      refine wp_operation (fun removed hremove => ?_) (fun hnone => ?_)
        fun _ _ _ _ _ hstops => hstops htail
      · dsimp only at hremove
        rw [hexport, hfile] at hremove
        obtain rfl := Option.some.inj hremove
        refine hmove _ ?_ ((setEntry_of_ne _ hne).trans (setEntry_self ..)) (setEntry_self ..)
        show world.fates.tail.tail = []
        rw [htail, tail_nil]
      · dsimp only at hnone
        rw [hexport, hfile] at hnone
        cases hnone
    · next hpresent =>
      rw [hexport] at hpresent
      refine hmove _ htail (setEntry_self ..) ?_
      cases hentry : world.disk (exportFile stem) with
      | missing => exact hexport.trans hentry
      | file | dir =>
        rw [hentry] at hpresent
        exact absurd rfl hpresent
  · rw [hhere] at hnone
    cases hentry : world.disk (temporaryExport stem token) with
    | missing | file =>
      rw [hentry] at hnone
      dsimp only at hnone
      rw [if_pos hfile] at hnone
      cases hnone
    | dir content => exact hcopied content hentry

theorem write_spec (hvalid : checkpoint.Valid) :
    wp (write codecs stem token checkpoint payloads)
      (fun _ world' => Wrote codecs stem checkpoint payloads world world' ∧
        world'.disk (backupDir stem) ≠ .file)
      (fun _ world' => (Keeps stem world world' ∨
        Wrote codecs stem checkpoint payloads world world' ∧
          ∀ old, Kept stem world.disk old → world'.disk (backupDir stem) ≠ .file) ∧
        ¬ (Unhindered codecs stem token checkpoint payloads world ∧
          ∃ old, Kept stem world.disk old)) world := by
  have hstate := temporaryDir_ne_stateDir stem token
  have hbackup := temporaryDir_ne_backupDir stem token
  -- until the staging is done, nothing but the temporary directory changes
  have hstaging (world₁ world₂ : World String Dir Checkpoint) (hdisk : world₁.disk = world.disk)
      (hannounced : world₁.announced = world.announced)
      (h : Confines (· = temporaryDir stem token) world₁ world₂) : Keeps stem world world₂ := by
    have hkeeps := Keeps.of_confines h hstate.symm hbackup.symm
    exact ⟨fun old hold => hkeeps.kept old (hdisk ▸ hold), hkeeps.announced.trans hannounced⟩
  unfold write
  dsimp only
  rw [wp_bind]
  refine wp_operation (fun disk hdisk => ?_) (fun hnone => nomatch hnone) ?_
  · obtain rfl : world.disk = disk := Option.some.inj hdisk
    have hcalm (h : Unhindered codecs stem token checkpoint payloads world) :
        world.fates.tail = [] := by rw [h.quiet.fates, tail_nil]
    rw [wp_bind]
    refine wp_attempt (wp_mono (wp_and (writeInto_spec hvalid) (writeInto_confined _)) ?_ ?_)
    · rintro manifest world₁ ⟨⟨hquiet, content, hhere, hbrought⟩, hconfined⟩
      have hkeeps := hstaging { world with fates := world.fates.tail } _ rfl rfl hconfined
      have hclear (h : Unhindered codecs stem token checkpoint payloads world)
          (hkept : ∃ old, Kept stem world.disk old) : Clear stem world₁ := by
        obtain ⟨old, hold⟩ := hkept
        exact ⟨hquiet ⟨hcalm h, h.quiet.free, h.quiet.provides⟩, old, hkeeps.kept old hold⟩
      dsimp only
      rw [wp_bind]
      refine wp_mono (publish_spec hhere) ?_ ?_
      · rintro _ world₂ ⟨hreplaced, hmissing, hothers, hcalm₂⟩
        have hwrote : Wrote codecs stem checkpoint payloads world world₂ :=
          ⟨manifest, content, hbrought, hreplaced.here,
            hreplaced.announced.trans (congrArg (_ :: ·) hkeeps.announced)⟩
        cases hadapter : checkpoint.manifest.adapter with
        | none => exact ⟨hwrote, fun h => nomatch hmissing.symm.trans h⟩
        | some adapter =>
          have hfree {name : String} (hname : name ≠ stateDir stem)
              (h : ∀ content, world.disk name ≠ .dir content) (content : Dir) :
              world₂.disk name ≠ .dir content := fun hdir => by
            obtain ⟨htemporary, hsame⟩ := hothers name hname (by rw [hdir]; nofun)
            exact h content ((hconfined.disk name htemporary).symm.trans (hsame.symm.trans hdir))
          have hreturns (h : Unhindered codecs stem token checkpoint payloads world)
              (hkept : ∃ old, Kept stem world.disk old) :
              wp (exportAdapter stem token adapter) (fun _ _ => True) (fun _ _ => False) world₂ := by
            refine exportAdapter_returns (hcalm₂ (hclear h hkept)) hreplaced.here ?_
              (hfree (temporaryExport_ne_stateDir stem token) h.copied)
              (hfree (exportFile_ne_stateDir stem) h.exported)
            refine hbrought.complete.payloads adapter ?_
            rw [payloadFiles_filledIn hbrought.filledIn, payloadFiles, hadapter]
            exact mem_append_left _ (mem_append_left _ mem_cons_self)
          have hexport {world₃ : World String Dir Checkpoint} (h : Confines (fun name =>
              name = temporaryExport stem token ∨ name = exportFile stem) world₂ world₃) :
              Wrote codecs stem checkpoint payloads world world₃ ∧
                world₃.disk (backupDir stem) ≠ .file := by
            have hsame := h.disk (stateDir stem) (not_or.mpr
              ⟨(temporaryExport_ne_stateDir stem token).symm, (exportFile_ne_stateDir stem).symm⟩)
            have hsame' := h.disk (backupDir stem) (not_or.mpr
              ⟨(temporaryExport_ne_backupDir stem token).symm, (exportFile_ne_backupDir stem).symm⟩)
            refine ⟨⟨manifest, content, hbrought, hsame.trans hreplaced.here, ?_⟩, fun hfile => ?_⟩
            · exact h.announced.trans
                (hreplaced.announced.trans (congrArg (_ :: ·) hkeeps.announced))
            · cases hmissing.symm.trans (hsame'.symm.trans hfile)
          show wp (exportAdapter stem token adapter) _ _ world₂
          have hconfined : wp (exportAdapter stem token adapter) _ _ world₂ :=
            exportAdapter_confined adapter world₂
          refine wp_intro (fun _ world₃ hrun => ?_) fun stop world₃ hrun =>
            ⟨.inr ?_, fun h => wp_of_error (hreturns h.1 h.2) hrun⟩
          · have htouched := wp_of_ok hconfined hrun
            exact hexport htouched
          · have htouched := wp_of_error hconfined hrun
            exact ⟨(hexport htouched).1, fun _ _ => (hexport htouched).2⟩
      · rintro stop world₂ ⟨hended, hhindered⟩
        refine ⟨?_, fun h => hhindered (hclear h.1 h.2)⟩
        rcases hended with hstill | ⟨hreplaced, hfile⟩
        · exact .inl (hkeeps.trans hstill)
        · exact .inr ⟨⟨manifest, content, hbrought, hreplaced.here,
            hreplaced.announced.trans (congrArg (_ :: ·) hkeeps.announced)⟩,
            fun old hold => hfile old (hkeeps.kept old hold)⟩
    · rintro stop world₁ ⟨hhindered, hconfined⟩
      have hkeeps := hstaging { world with fates := world.fates.tail } _ rfl rfl hconfined
      have hnot : ¬ (Unhindered codecs stem token checkpoint payloads world ∧
          ∃ old, Kept stem world.disk old) := fun h =>
        hhindered ⟨hcalm h.1, h.1.quiet.free, h.1.quiet.provides⟩
      have hended {world₂ : World String Dir Checkpoint}
          (h : Confines (· = temporaryDir stem token) world₁ world₂) : Keeps stem world world₂ :=
        hstaging { world with fates := world.fates.tail } _ rfl rfl (hconfined.trans h)
      refine ⟨fun _ => ⟨.inl hkeeps, hnot⟩, fun _ => ?_⟩
      dsimp only
      rw [wp_bind]
      have hremove : Confined (· = temporaryDir stem token)
          (removeDirAll (temporaryDir stem token) : WriteM Unit) := .removeDirAll rfl
      exact wp_attempt (wp_mono (hremove world₁)
        (fun _ _ h => ⟨.inl (hended h), hnot⟩) fun _ _ h =>
          ⟨fun _ => ⟨.inl (hended h), hnot⟩, fun _ => ⟨.inl (hended h), hnot⟩⟩)
  · rintro stop disk fates - (rfl | ⟨left, rfl⟩) hfates
    · exact ⟨.inl ⟨fun _ h => h, rfl⟩, fun h => hfates h.1.quiet.fates⟩
    · exact ⟨.inl ⟨fun _ h => h, rfl⟩, fun h => hfates h.1.quiet.fates⟩

end Write

/-! ### Runs -/

/-- One call, with the fates its operations meet. -/
structure Attempt where
  token : String
  checkpoint : Checkpoint
  payloads : Payloads
  fates : List (Fate Dir)
  valid : checkpoint.Valid

section Runs

variable (codecs : Codecs) (stem : String)

def Attempt.run (attempt : Attempt) (world : World String Dir Checkpoint) :
    EStateM.Result (Stop Error) (World String Dir Checkpoint) Unit :=
  write codecs stem attempt.token attempt.checkpoint attempt.payloads
    { world with fates := attempt.fates }

/-- What a call leaves, however it ended. -/
def Attempt.leaves (attempt : Attempt) (world : World String Dir Checkpoint) :
    World String Dir Checkpoint :=
  match attempt.run codecs stem world with
  | .ok _ world => world
  | .error _ world => world

def Attempt.Returns (attempt : Attempt) (world : World String Dir Checkpoint) : Prop :=
  ∃ world', attempt.run codecs stem world = .ok () world'

instance (attempt : Attempt) (world : World String Dir Checkpoint) :
    Decidable (attempt.Returns codecs stem world) :=
  match hrun : attempt.run codecs stem world with
  | .ok _ world' => .isTrue ⟨world', hrun⟩
  | .error _ _ => .isFalse fun ⟨_, h⟩ => nomatch hrun.symm.trans h

/-- What a run of calls leaves. -/
def after (world : World String Dir Checkpoint) (attempts : List Attempt) :
    World String Dir Checkpoint :=
  attempts.foldl (fun world attempt => attempt.leaves codecs stem world) world

/-- The checkpoint announced last is one of those written, and it is kept as its write made it. -/
def Standing (attempts : List Attempt) (world : World String Dir Checkpoint) : Prop :=
  ∃ attempt ∈ attempts, ∃ manifest content,
    Brought codecs attempt.checkpoint attempt.payloads manifest content ∧
      Kept stem world.disk content ∧
      world.announced.head? = some { attempt.checkpoint with manifest }

variable {codecs stem} {attempts : List Attempt} {world : World String Dir Checkpoint}

private theorem standing_of_wrote {attempt : Attempt} {world world' : World String Dir Checkpoint}
    (h : Wrote codecs stem attempt.checkpoint attempt.payloads world world')
    (hbackup : world'.disk (backupDir stem) ≠ .file) (hmem : attempt ∈ attempts) :
    Standing codecs stem attempts world' := by
  obtain ⟨manifest, content, hbrought, hreplaced⟩ := h
  refine ⟨attempt, hmem, manifest, content, hbrought, .published hreplaced.here hbackup, ?_⟩
  rw [hreplaced.announced, head?_cons]

/-- A first write that returned leaves its checkpoint standing. -/
theorem standing_of_returns {attempt : Attempt} (h : attempt.Returns codecs stem world) :
    Standing codecs stem [attempt] (attempt.leaves codecs stem world) := by
  obtain ⟨world', hrun⟩ := h
  obtain ⟨hwrote, hbackup⟩ := wp_of_ok (write_spec attempt.valid) hrun
  rw [Attempt.leaves, hrun]
  exact standing_of_wrote hwrote hbackup (mem_singleton_self attempt)

/-- A write, however it ends, keeps what stands or puts its own in its place. -/
theorem Standing.leaves (h : Standing codecs stem attempts world) (attempt : Attempt) :
    Standing codecs stem (attempts ++ [attempt]) (attempt.leaves codecs stem world) ∧
      ((attempt.leaves codecs stem world).announced = world.announced →
        ∀ content, Kept stem world.disk content →
          Kept stem (attempt.leaves codecs stem world).disk content) := by
  have hmem : attempt ∈ attempts ++ [attempt] :=
    mem_append_right _ (mem_singleton_self attempt)
  -- a log that has grown is not the one before
  have hgrown {world' : World String Dir Checkpoint} {P : Prop}
      (hwrote : Wrote codecs stem attempt.checkpoint attempt.payloads
        { world with fates := attempt.fates } world')
      (hsame : world'.announced = world.announced) : P := by
    obtain ⟨manifest, content, -, hreplaced⟩ := hwrote
    have hlength : world.announced.length = world.announced.length + 1 :=
      congrArg List.length (hsame.symm.trans hreplaced.announced)
    omega
  have hspec : wp (write codecs stem attempt.token attempt.checkpoint attempt.payloads) _ _
      { world with fates := attempt.fates } := write_spec attempt.valid
  unfold Attempt.leaves
  cases hrun : attempt.run codecs stem world with
  | ok _ world' =>
    obtain ⟨hwrote, hbackup⟩ := wp_of_ok hspec hrun
    exact ⟨standing_of_wrote hwrote hbackup hmem, fun hsame => hgrown hwrote hsame⟩
  | error stop world' =>
    obtain ⟨hkept | ⟨hwrote, hbackup⟩, -⟩ := wp_of_error hspec hrun
    · obtain ⟨attempt', hattempt', manifest, content, hbrought, hstands, hhead⟩ := h
      refine ⟨⟨attempt', mem_append_left _ hattempt', manifest, content, hbrought,
        hkept.kept _ hstands, ?_⟩, fun _ => hkept.kept⟩
      exact (congrArg List.head? hkept.announced).trans hhead
    · obtain ⟨-, -, -, content, -, hstands, -⟩ := h
      exact ⟨standing_of_wrote hwrote (hbackup content hstands) hmem,
        fun hsame => hgrown hwrote hsame⟩

theorem Standing.after (h : Standing codecs stem attempts world) (later : List Attempt) :
    Standing codecs stem (attempts ++ later) (after codecs stem world later) := by
  induction later generalizing attempts world with
  | nil => rwa [append_nil]
  | cons attempt later ih =>
    have hnext := ih (h.leaves attempt).1
    rwa [append_assoc, singleton_append] at hnext

/-- What stands is what is read, whole. -/
theorem Standing.reads (h : Standing codecs stem attempts world) :
    ∃ attempt ∈ attempts, ∃ manifest content,
      Brought codecs attempt.checkpoint attempt.payloads manifest content ∧
      world.announced.head? = some { attempt.checkpoint with manifest } ∧
      world.disk (readableStateDir world.disk stem) = .dir content ∧
      read codecs world.disk stem = .ok { attempt.checkpoint with manifest } ∧
      (0 < attempt.checkpoint.optimizer.stateBytes → ∃ bytes,
        content.files optimizerStateFile = some bytes ∧
          openOptimizerState world.disk stem attempt.checkpoint.optimizer = .ok bytes) := by
  obtain ⟨attempt, hattempt, manifest, content, hbrought, hkept, hhead⟩ := h
  have hreadable := hkept.readable
  exact ⟨attempt, hattempt, manifest, content, hbrought, hhead, hreadable,
    hbrought.complete.read hreadable, hbrought.complete.openOptimizerState hreadable⟩

end Runs

/-! ### Resuming -/

section Latest

variable {disk : Disk}

private def found (seen : Option (ℕ × String) × Option String) : Bool :=
  seen.1.isSome || seen.2.isSome

private theorem found_consider (seen : Option (ℕ × String) × Option String) (name : String) :
    found (consider disk seen name) = (found seen || (disk name).isDir && (named name).isSome) := by
  obtain ⟨step, best⟩ := seen
  unfold consider
  cases hdir : (disk name).isDir with
  | false => simp [found]
  | true =>
    cases hnamed : named name with
    | none => simp [found]
    | some kind =>
      cases kind with
      | best => simp [found]
      | step number =>
        -- a step that is not taken is no higher than one that was
        cases step with
        | none => simp [found]
        | some current => by_cases hlt : current.1 < number <;> simp [found, hlt]

/-- `latest_checkpoint` finds a checkpoint exactly when one is listed under its own name. -/
theorem latestCheckpoint_ok_iff {listing : List String} :
    (∃ name, latestCheckpoint disk listing = .ok name) ↔
      ∃ name ∈ listing, (disk name).isDir ∧ (named name).isSome := by
  have hfold (seen : Option (ℕ × String) × Option String) :
      found (listing.foldl (consider disk) seen) =
        (found seen || listing.any fun name => (disk name).isDir && (named name).isSome) := by
    induction listing generalizing seen with
    | nil => simp
    | cons name listing ih =>
      rw [foldl_cons, ih, found_consider, any_cons, Bool.or_assoc]
  have hany : found (listing.foldl (consider disk) (none, none)) = true ↔
      ∃ name ∈ listing, (disk name).isDir ∧ (named name).isSome := by
    rw [hfold]
    simp [found]
  rw [← hany]
  unfold latestCheckpoint
  generalize listing.foldl (consider disk) (none, none) = seen
  obtain ⟨step, best⟩ := seen
  cases step with
  | some step => simp [found]
  | none => cases best <;> simp [found]

end Latest

/-! ### Replacement -/

/-- A codec of one record. -/
def Codec.single {α : Type} [DecidableEq α] (a : α) : Codec α where
  encode b := if b = a then some [] else none
  decode _ := some a
  decode_encode b bytes h := by
    split at h
    · next heq => rw [heq]
    · cases h

/-- A run's best checkpoint: no adapter, no bundle and no optimizer state. -/
def best : Checkpoint where
  manifest := ⟨formatVersion, none, none, requiredFiles, [], ""⟩
  progress := ⟨formatVersion, ""⟩
  scheduler := ⟨formatVersion, ""⟩
  optimizer := ⟨formatVersion, [], 0, ""⟩
  rng := ⟨formatVersion, ""⟩
  dataset := ⟨formatVersion, ""⟩
  artifacts := []

theorem best_valid : best.Valid where
  manifest := rfl
  progress := rfl
  scheduler := rfl
  optimizer := rfl
  rng := rfl
  dataset := rfl
  files _ h := h
  slots := rfl
  artifacts := rfl
  distinct := nodup_nil

def bestCodecs : Codecs where
  manifest := .single best.manifest
  progress := .single best.progress
  scheduler := .single best.scheduler
  optimizer := .single best.optimizer
  rng := .single best.rng
  dataset := .single best.dataset
  fingerprint _ := ""

/-- A write of the best checkpoint. -/
def bestAttempt (token : String) (fates : List (Fate Dir)) : Attempt :=
  ⟨token, best, .ok, fates, best_valid⟩

def noFiles : World String Dir Checkpoint := ⟨fun _ => .missing, [], []⟩

/-- The second write of the best checkpoint, cut after it has moved the first one aside. -/
def cutAttempt : Attempt :=
  bestAttempt "1-1" (List.replicate 11 .works ++ [.stops true id])

end Retrograd.Checkpoints
