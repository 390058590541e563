import Retrograd.Checkpoints.Complete

/-!
# Replacing a checkpoint

A write replaces the checkpoint of a state directory by two renames. Between them the directory is
not there, and the previous checkpoint is read where it was moved to. So whatever is cut, and
wherever, **the checkpoint that was published last is the one that is read** (`Kept`). Resolving a
resume does not look where readers do: `latest_checkpoint` finds no checkpoint that stands aside.
-/

namespace Retrograd.Checkpoints

open Logic List

/-! ### Names -/

section Names

variable (stem token : String)

private theorem temporaryDir_eq :
    temporaryDir stem token = "." ++ stateDir stem ++ (".tmp-" ++ token) := by
  simp only [temporaryDir, String.append_assoc]

private theorem temporaryExport_eq : temporaryExport stem token =
    "." ++ stateDir stem ++ (".export-" ++ (token ++ ".gguf")) := by
  simp only [temporaryExport, String.append_assoc]

/-- A name with a dot in front is longer. -/
private theorem hidden_ne (ending : String) : "." ++ stateDir stem ++ ending ≠ stateDir stem := by
  intro h
  have hlength := congrArg String.length h
  rw [String.length_append, String.length_append, show ".".length = 1 from rfl] at hlength
  omega

theorem temporaryDir_ne_stateDir : temporaryDir stem token ≠ stateDir stem := by
  rw [temporaryDir_eq]
  exact hidden_ne stem _

theorem backupDir_ne_stateDir : backupDir stem ≠ stateDir stem := hidden_ne stem _

theorem temporaryExport_ne_stateDir : temporaryExport stem token ≠ stateDir stem := by
  rw [temporaryExport_eq]
  exact hidden_ne stem _

/-- Nor is it the backup's when it goes on in another letter. -/
private theorem hidden_ne_backup {ending : String} (h : ending.toList[1]? ≠ some 'b') :
    "." ++ stateDir stem ++ ending ≠ backupDir stem := by
  intro heq
  have hlists := congrArg String.toList heq
  simp only [backupDir, String.toList_append, append_cancel_left_eq] at hlists
  exact h (hlists ▸ rfl)

theorem temporaryDir_ne_backupDir : temporaryDir stem token ≠ backupDir stem := by
  rw [temporaryDir_eq]
  refine hidden_ne_backup stem ?_
  rw [String.toList_append, show ".tmp-".toList = ['.', 't', 'm', 'p', '-'] from rfl]
  simp

theorem temporaryExport_ne_backupDir : temporaryExport stem token ≠ backupDir stem := by
  rw [temporaryExport_eq]
  refine hidden_ne_backup stem ?_
  rw [String.toList_append,
    show ".export-".toList = ['.', 'e', 'x', 'p', 'o', 'r', 't', '-'] from rfl]
  simp

theorem exportFile_ne_stateDir : exportFile stem ≠ stateDir stem := by
  intro h
  have hlength := congrArg String.length h
  unfold exportFile at hlength
  split at hlength
  · next hempty =>
    subst hempty
    exact absurd hlength (by decide)
  · rw [stateDir, String.length_append, String.length_append, show ".gguf".length = 5 from rfl,
      show ".state".length = 6 from rfl] at hlength
    omega

theorem exportFile_ne_backupDir : exportFile stem ≠ backupDir stem := by
  intro h
  have hlength := congrArg String.length h
  unfold exportFile at hlength
  split at hlength
  · next hempty =>
    subst hempty
    exact absurd hlength (by decide)
  · rw [backupDir, stateDir, String.length_append, String.length_append, String.length_append,
      String.length_append, show ".gguf".length = 5 from rfl, show ".state".length = 6 from rfl,
      show ".".length = 1 from rfl] at hlength
    omega

theorem temporaryExport_ne_exportFile : temporaryExport stem token ≠ exportFile stem := by
  intro h
  have hlength := congrArg String.length h
  rw [temporaryExport, exportFile, stateDir] at hlength
  simp only [String.length_append, show ".".length = 1 from rfl, show ".state".length = 6 from rfl,
    show ".export-".length = 8 from rfl, show ".gguf".length = 5 from rfl] at hlength
  split at hlength
  · next hempty =>
    subst hempty
    simp only [String.length_append, show ".state".length = 6 from rfl,
      show ".gguf".length = 5 from rfl] at hlength
    omega
  · simp only [String.length_append, show ".gguf".length = 5 from rfl] at hlength
    omega

end Names

/-! ### What is kept -/

/-- A directory stands under its own name, or aside where readers look for it. -/
inductive Kept (stem : String) (disk : Disk) (content : Dir) : Prop
  | published (here : disk (stateDir stem) = .dir content) (backup : disk (backupDir stem) ≠ .file)
  | aside (gone : disk (stateDir stem) = .missing) (here : disk (backupDir stem) = .dir content)

section Kept

variable {stem : String} {disk disk' : Disk} {content : Dir}

/-- What is kept is what readers look at. -/
theorem Kept.readable (h : Kept stem disk content) :
    disk (readableStateDir disk stem) = .dir content := by
  cases h with
  | published here backup =>
    rw [readableStateDir, here, Entry.isDir, if_pos rfl, here]
  | aside gone here =>
    rw [readableStateDir, gone, here]
    exact here

/-- It does not hang on other names. -/
theorem Kept.congr (h : Kept stem disk content)
    (hstate : disk' (stateDir stem) = disk (stateDir stem))
    (hbackup : disk' (backupDir stem) = disk (backupDir stem)) : Kept stem disk' content := by
  cases h with
  | published here backup => exact .published (hstate.trans here) (hbackup ▸ backup)
  | aside gone here => exact .aside (hstate.trans gone) (hbackup.trans here)

/-- Nor on what the backup holds, while the directory stands. -/
theorem Kept.of_state (h : Kept stem disk content) (hdir : (disk (stateDir stem)).isDir)
    (hstate : disk' (stateDir stem) = disk (stateDir stem))
    (hbackup : disk' (backupDir stem) ≠ .file) : Kept stem disk' content := by
  cases h with
  | published here backup => exact .published (hstate.trans here) hbackup
  | aside gone here =>
    rw [gone] at hdir
    cases hdir

theorem Kept.backup_ne_file (h : Kept stem disk content) : disk (backupDir stem) ≠ .file := by
  cases h with
  | published here backup => exact backup
  | aside gone here =>
    rw [here]
    nofun

end Kept

/-! ### Publishing -/

section Publish

variable {stem token : String} {checkpoint : Checkpoint} {content : Dir}
  {world : World String Dir Checkpoint}

/-- While a write moves directories about: what was kept still is, and nothing was announced. -/
structure Keeps (stem : String) (world world' : World String Dir Checkpoint) : Prop where
  kept : ∀ old, Kept stem world.disk old → Kept stem world'.disk old
  announced : world'.announced = world.announced

theorem Keeps.refl (stem : String) (world : World String Dir Checkpoint) : Keeps stem world world :=
  ⟨fun _ h => h, rfl⟩

theorem Keeps.trans {world' world'' : World String Dir Checkpoint} (h : Keeps stem world world')
    (h' : Keeps stem world' world'') : Keeps stem world world'' :=
  ⟨fun old hold => h'.kept old (h.kept old hold), h'.announced.trans h.announced⟩

/-- Touching neither name keeps what is kept. -/
theorem Keeps.of_confines {touched : String → Prop} {world' : World String Dir Checkpoint}
    (h : Confines touched world world') (hstate : ¬ touched (stateDir stem))
    (hbackup : ¬ touched (backupDir stem)) : Keeps stem world world' :=
  ⟨fun _ hold => hold.congr (h.disk _ hstate) (h.disk _ hbackup), h.announced⟩

/-- Nothing of the disk's own keeps a write from going through. -/
def Clear (stem : String) (world : World String Dir Checkpoint) : Prop :=
  world.fates = [] ∧ ∃ old, Kept stem world.disk old

/-- After `moveAside`, the place is free, and what was kept stands aside. -/
structure MovedAside (stem : String) (world world' : World String Dir Checkpoint) : Prop where
  gone : world'.disk (stateDir stem) = .missing
  aside : ∀ old, Kept stem world.disk old → world'.disk (backupDir stem) = .dir old
  others : ∀ name, name ≠ stateDir stem → name ≠ backupDir stem →
    world'.disk name = world.disk name
  announced : world'.announced = world.announced
  calm : Clear stem world → world'.fates = []

theorem removeStale_spec (world : World String Dir Checkpoint) :
    wp (removeStale stem)
      (fun _ world' => Keeps stem world world' ∧
        ((world'.disk (stateDir stem)).isDir → world'.disk (backupDir stem) = .missing) ∧
        (∀ name, name ≠ backupDir stem → world'.disk name = world.disk name) ∧
        (Clear stem world → world'.fates = []))
      (fun _ world' => Keeps stem world world' ∧ ¬ Clear stem world) world := by
  have hne := backupDir_ne_stateDir stem
  unfold removeStale
  rw [wp_bind, wp_disk]
  split
  · next hstale =>
    rw [Bool.and_eq_true] at hstale
    obtain ⟨hdir, hpresent⟩ := hstale
    refine wp_removeDirAll (fun backup hbackup => ?_) fun stop entry fates hentry hfates => ?_
    · have hother (name : String) (h : name ≠ backupDir stem) :
          setEntry world.disk (backupDir stem) .missing name = world.disk name :=
        setEntry_of_ne _ h
      have hself := setEntry_self world.disk (backupDir stem) .missing
      refine ⟨⟨fun old hold => hold.of_state hdir (hother _ hne.symm) ?_, rfl⟩, fun _ => hself,
        hother, fun h => ?_⟩
      · exact fun h => nomatch hself.symm.trans h
      · show world.fates.tail = []
        rw [h.1, tail_nil]
    · have hbackup {old : Dir} (hold : Kept stem world.disk old) :
          ∃ backup, world.disk (backupDir stem) = .dir backup := by
        cases hentry' : world.disk (backupDir stem) with
        | missing =>
          rw [hentry'] at hpresent
          cases hpresent
        | file => exact absurd hentry' hold.backup_ne_file
        | dir backup => exact ⟨backup, rfl⟩
      refine ⟨⟨fun old hold => ?_, rfl⟩, fun ⟨hnil, old, hold⟩ => ?_⟩
      · obtain ⟨backup, hbackup⟩ := hbackup hold
        refine hold.of_state hdir (setEntry_of_ne _ hne.symm) ?_
        exact fun h => hentry backup hbackup ((setEntry_self ..).symm.trans h)
      · obtain ⟨backup, hbackup⟩ := hbackup hold
        rcases hfates with hfates | hfates
        · exact hfates hnil
        · exact hfates backup hbackup
  · next hstale =>
    refine ⟨.refl stem world, fun hdir => ?_, fun _ _ => rfl, fun h => h.1⟩
    rw [hdir, Bool.true_and, Bool.not_eq_true] at hstale
    cases hentry : world.disk (backupDir stem) with
    | missing => rfl
    | file =>
      rw [hentry] at hstale
      cases hstale
    | dir backup =>
      rw [hentry] at hstale
      cases hstale

theorem moveAside_spec (world : World String Dir Checkpoint) :
    wp (moveAside stem) (fun _ => MovedAside stem world)
      (fun _ world' => Keeps stem world world' ∧ ¬ Clear stem world) world := by
  have hne := backupDir_ne_stateDir stem
  unfold moveAside
  rw [wp_bind]
  refine wp_mono (removeStale_spec world) ?_ fun _ _ h => h
  rintro _ world₁ ⟨hkeeps, hstale, hothers, hcalm⟩
  rw [wp_bind, wp_disk]
  split
  · next hpresent =>
    refine wp_rename (fun _ _ => ?_) fun stop fates hstops => ⟨⟨hkeeps.kept, hkeeps.announced⟩, ?_⟩
    · have hself := setEntry_self (setEntry world₁.disk (backupDir stem)
        (world₁.disk (stateDir stem))) (stateDir stem) .missing
      refine ⟨hself, fun old hold => ?_, fun name hstate hbackup => ?_, hkeeps.announced, ?_⟩
      · have haside : setEntry (setEntry world₁.disk (backupDir stem)
            (world₁.disk (stateDir stem))) (stateDir stem) .missing (backupDir stem) =
              world₁.disk (stateDir stem) := (setEntry_of_ne _ hne).trans (setEntry_self ..)
        cases hkeeps.kept old hold with
        | published here backup => exact haside.trans here
        | aside gone here =>
          rw [gone] at hpresent
          cases hpresent
      · exact ((setEntry_of_ne _ hstate).trans (setEntry_of_ne _ hbackup)).trans
          (hothers name hbackup)
      · intro h
        show world₁.fates.tail = []
        rw [hcalm h, tail_nil]
    · rintro hclear
      obtain ⟨old, hold⟩ := hclear.2
      cases hkeeps.kept old hold with
      | published here backup =>
        have hmissing := hstale (by rw [here, Entry.isDir])
        rcases hstops with hstops | hstops | hstops
        · exact hstops (hcalm hclear)
        · rw [here] at hstops
          cases hstops
        · exact hstops hmissing
      | aside gone here =>
        rw [gone] at hpresent
        cases hpresent
  · next hpresent =>
    have hgone : world₁.disk (stateDir stem) = .missing := by
      cases hentry : world₁.disk (stateDir stem) with
      | missing => rfl
      | file | dir =>
        rw [hentry] at hpresent
        exact absurd rfl hpresent
    refine ⟨hgone, fun old hold => ?_, fun name _ => hothers name, hkeeps.announced, hcalm⟩
    cases hkeeps.kept old hold with
    | published here backup =>
      rw [hgone] at here
      cases here
    | aside gone here => exact here

/-- Putting back what was moved aside keeps it. -/
theorem putBack_spec (hgone : world.disk (stateDir stem) = .missing) :
    wp (putBack stem token) (fun _ => Keeps stem world) (fun _ => Keeps stem world) world := by
  have hne := backupDir_ne_stateDir stem
  have hremove (world₁ : World String Dir Checkpoint) (hkeeps : Keeps stem world world₁) :
      wp (attempt (removeDirAll (temporaryDir stem token)) >>= fun _ => pure () : WriteM Unit)
        (fun _ => Keeps stem world) (fun _ => Keeps stem world) world₁ := by
    have hconfined : Confined (· = temporaryDir stem token) (do
        let _ ← attempt (removeDirAll (temporaryDir stem token)) : WriteM Unit) :=
      .bind (.attempt (.removeDirAll rfl)) fun _ => .pure _
    have hkept {world₂ : World String Dir Checkpoint}
        (h : Confines (· = temporaryDir stem token) world₁ world₂) : Keeps stem world world₂ :=
      hkeeps.trans (.of_confines h (temporaryDir_ne_stateDir stem token).symm
        (temporaryDir_ne_backupDir stem token).symm)
    exact wp_mono (hconfined world₁) (fun _ _ => hkept) fun _ _ => hkept
  unfold putBack
  rw [wp_bind, wp_disk]
  split
  · next hback =>
    rw [wp_bind]
    refine wp_attempt (wp_rename (fun _ _ => hremove _ ⟨fun old hold => ?_, rfl⟩)
      fun stop fates _ => ⟨fun _ => ⟨fun _ h => h, rfl⟩, fun _ => hremove _ ⟨fun _ h => h, rfl⟩⟩)
    cases hold with
    | published here backup =>
      rw [hgone] at here
      cases here
    | aside gone here =>
      refine .published ?_ fun h => ?_
      · exact ((setEntry_of_ne _ hne.symm).trans (setEntry_self ..)).trans here
      · cases (setEntry_self ..).symm.trans h
  · exact hremove world (.refl stem world)

/-- The new checkpoint is the one that is kept, and the last one announced. -/
structure Replaced (stem : String) (checkpoint : Checkpoint) (content : Dir)
    (world world' : World String Dir Checkpoint) : Prop where
  here : world'.disk (stateDir stem) = .dir content
  announced : world'.announced = checkpoint :: world.announced

theorem publish_spec (hstaged : world.disk (temporaryDir stem token) = .dir content) :
    wp (publish stem token checkpoint)
      (fun _ world' => Replaced stem checkpoint content world world' ∧
        world'.disk (backupDir stem) = .missing ∧
        (∀ name, name ≠ stateDir stem → world'.disk name ≠ .missing →
          name ≠ temporaryDir stem token ∧ world'.disk name = world.disk name) ∧
        (Clear stem world → world'.fates = []))
      (fun _ world' => (Keeps stem world world' ∨
        Replaced stem checkpoint content world world' ∧
          ∀ old, Kept stem world.disk old → world'.disk (backupDir stem) ≠ .file) ∧
        ¬ Clear stem world) world := by
  have hne := backupDir_ne_stateDir stem
  have hstate := temporaryDir_ne_stateDir stem token
  have hbackup := temporaryDir_ne_backupDir stem token
  unfold publish
  rw [wp_bind]
  refine wp_mono (moveAside_spec world) ?_ fun _ _ h => ⟨.inl h.1, h.2⟩
  intro _ world₁ hmoved
  have hhere : world₁.disk (temporaryDir stem token) = .dir content :=
    (hmoved.others _ hstate hbackup).trans hstaged
  have hkeeps : Keeps stem world world₁ :=
    ⟨fun old hold => .aside hmoved.gone (hmoved.aside old hold), hmoved.announced⟩
  have hput {world₂ : World String Dir Checkpoint} (h : world₂.disk = world₁.disk)
      (hannounced : world₂.announced = world₁.announced) : Keeps stem world world₂ :=
    ⟨fun old hold => h ▸ hkeeps.kept old hold, hannounced.trans hkeeps.announced⟩
  rw [wp_bind]
  refine wp_attempt (wp_rename (fun _ _ => ?_) fun stop fates hstops => ?_)
  · -- the new one is in its place
    dsimp only
    rw [wp_bind, wp_announce, wp_bind, wp_disk]
    generalize hdisk : setEntry (setEntry world₁.disk (stateDir stem)
      (world₁.disk (temporaryDir stem token))) (temporaryDir stem token) .missing = placed
    have hplaced : placed (stateDir stem) = .dir content := by
      rw [← hdisk, setEntry_of_ne _ hstate.symm, setEntry_self, hhere]
    have haside : placed (backupDir stem) = world₁.disk (backupDir stem) := by
      rw [← hdisk, setEntry_of_ne _ hbackup.symm, setEntry_of_ne _ hne]
    have hothers (name : String) (h : name ≠ stateDir stem) (h' : name ≠ backupDir stem)
        (hpresent : placed name ≠ .missing) :
        name ≠ temporaryDir stem token ∧ placed name = world.disk name := by
      have hname : name ≠ temporaryDir stem token := fun heq => hpresent (by
        rw [← hdisk, heq, setEntry_self])
      refine ⟨hname, ?_⟩
      rw [← hdisk, setEntry_of_ne _ hname, setEntry_of_ne _ h, hmoved.others name h h']
    have hcalm (h : Clear stem world) : world₁.fates.tail = [] := by
      rw [hmoved.calm h, tail_nil]
    have hannounced := congrArg (checkpoint :: ·) hmoved.announced
    dsimp only
    split
    · refine wp_removeDirAll (fun backup _ => ?_) fun stop entry fates hentry hfates => ?_
      · refine ⟨⟨(setEntry_of_ne _ hne.symm).trans hplaced, hannounced⟩, setEntry_self ..,
          fun name hname hpresent => ?_, fun h => ?_⟩
        · have hother : name ≠ backupDir stem := fun heq => hpresent (heq ▸ setEntry_self ..)
          have hsame := @setEntry_of_ne _ _ _ placed _ _ .missing hother
          obtain ⟨hname', hplaced⟩ := hothers name hname hother (hsame ▸ hpresent)
          exact ⟨hname', hsame.trans hplaced⟩
        · show world₁.fates.tail.tail = []
          rw [hcalm h, tail_nil]
      · refine ⟨.inr ⟨⟨(setEntry_of_ne _ hne.symm).trans hplaced, hannounced⟩, fun old hold h => ?_⟩,
          fun hclear => ?_⟩
        · exact hentry old (haside.trans (hmoved.aside old hold)) ((setEntry_self ..).symm.trans h)
        · obtain ⟨old, hold⟩ := hclear.2
          rcases hfates with hfates | hfates
          · exact hfates (hcalm hclear)
          · exact hfates old (haside.trans (hmoved.aside old hold))
    · next hpresent =>
      have hmissing : placed (backupDir stem) = .missing := by
        cases hentry : placed (backupDir stem) with
        | missing => rfl
        | file | dir =>
          rw [hentry] at hpresent
          exact absurd rfl hpresent
      refine ⟨⟨hplaced, hannounced⟩, hmissing, fun name hname hpresent => ?_, hcalm⟩
      exact hothers name hname (fun heq => hpresent (heq ▸ hmissing)) hpresent
  · -- the rename stopped: what was moved aside is put back, as far as it can be
    have hstopped : ¬ Clear stem world := by
      intro hclear
      rcases hstops with hstops | hstops | hstops
      · exact hstops (hmoved.calm hclear)
      · rw [hhere] at hstops
        cases hstops
      · exact hstops hmoved.gone
    refine ⟨fun _ => ⟨.inl (hput rfl rfl), hstopped⟩, fun _ => ?_⟩
    have hstill : Keeps stem world { world₁ with fates } := hput rfl rfl
    dsimp only
    rw [wp_bind]
    refine wp_mono (putBack_spec hmoved.gone) (fun _ world₂ h => ?_) fun _ world₂ h => ?_
    · exact ⟨.inl (hstill.trans h), hstopped⟩
    · exact ⟨.inl (hstill.trans h), hstopped⟩

end Publish

end Retrograd.Checkpoints
