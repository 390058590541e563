import Retrograd.Logic.Wp

/-!
# Operations that a crash may cut

A disk holds an entry for every name, and an entry that is a directory has a content, of whatever
type. A program changes it one **operation** at a time, and the world decides the fate of each: it
works, or it stops, with an error the program sees or with the crash that ends it. What a stopped
operation was working on may be left in any state the operation passes through (`halfway`), and
every list of fates is a way the world may go, so what holds for every list holds at every point a
crash can cut the program.
-/

namespace Retrograd.Logic

/-- What a name stands for. -/
inductive Entry (D : Type)
  | missing
  | file
  | dir (content : D)

namespace Entry

variable {D : Type}

def isDir : Entry D → Bool
  | .dir _ => true
  | _ => false

def isFile : Entry D → Bool
  | .file => true
  | _ => false

def present : Entry D → Bool
  | .missing => false
  | _ => true

/-- A directory whose content changes; anything else stays. -/
def within (change : D → D) : Entry D → Entry D
  | .dir content => .dir (change content)
  | entry => entry

end Entry

/-- How an operation ends, with what a stopped one leaves of a directory it was working in. -/
inductive Fate (D : Type)
  | works
  | stops (crash : Bool) (left : D → D)

/-- A disk, the fates of the operations to come, and what the program has announced. -/
structure World (N D P : Type) where
  disk : N → Entry D
  fates : List (Fate D)
  announced : List P

/-- Why a program stopped: the crash, an operation's error, or its own refusal. -/
inductive Stop (E : Type)
  | crashed
  | io
  | refused (error : E)

abbrev DiskM (N D P E : Type) := EStateM (Stop E) (World N D P)

variable {N D P E α : Type}

/-- One operation. With no fates left, everything works that can. -/
def operation (change : (N → Entry D) → Option (N → Entry D))
    (halfway : (D → D) → (N → Entry D) → (N → Entry D)) : DiskM N D P E Unit := fun world =>
  match world.fates with
  | .stops crash left :: fates =>
    .error (if crash then .crashed else .io) { world with disk := halfway left world.disk, fates }
  | .works :: fates => match change world.disk with
    | some disk => .ok () { world with disk, fates }
    | none => .error .io { world with fates }
  | [] => match change world.disk with
    | some disk => .ok () { world with disk }
    | none => .error .io world

/-- An operation's error is looked at; nobody looks at a crash. -/
def attempt (m : DiskM N D P E α) : DiskM N D P E (Except (Stop E) α) := fun world =>
  match m world with
  | .ok a world => .ok (.ok a) world
  | .error .crashed world => .error .crashed world
  | .error stop world => .ok (.error stop) world

def disk : DiskM N D P E (N → Entry D) := fun world => .ok world.disk world

/-- The program announces what it has done. -/
def announce (p : P) : DiskM N D P E Unit := fun world =>
  .ok () { world with announced := p :: world.announced }

def refuse (error : E) : DiskM N D P E α := throw (.refused error)

section Operations

variable [DecidableEq N]

/-- The entry of one name is another. -/
def setEntry (disk : N → Entry D) (name : N) (entry : Entry D) : N → Entry D :=
  Function.update disk name entry

theorem setEntry_self (disk : N → Entry D) (name : N) (entry : Entry D) :
    setEntry disk name entry name = entry :=
  Function.update_self ..

theorem setEntry_of_ne {disk : N → Entry D} {name name' : N} (entry : Entry D) (h : name' ≠ name) :
    setEntry disk name entry name' = disk name' :=
  Function.update_of_ne h ..

/-- `fs::create_dir_all` of one name. -/
def createDirAll (empty : D) (name : N) : DiskM N D P E Unit :=
  operation (fun disk => match disk name with
    | .missing => some (setEntry disk name (.dir empty))
    | .dir _ => some disk
    | .file => none) fun _ disk => disk

/-- `fs::remove_dir_all`, which goes entry by entry. -/
def removeDirAll (name : N) : DiskM N D P E Unit :=
  operation (fun disk => match disk name with
    | .dir _ => some (setEntry disk name .missing)
    | _ => none) fun left disk => setEntry disk name ((disk name).within left)

/-- `fs::remove_file`. -/
def removeFile (name : N) : DiskM N D P E Unit :=
  operation (fun disk => match disk name with
    | .file => some (setEntry disk name .missing)
    | _ => none) fun _ disk => disk

/-- `fs::rename`. Onto a directory nothing is renamed: an empty one would be replaced by a
directory, which no program here does. -/
def rename (name name' : N) : DiskM N D P E Unit :=
  operation (fun disk => match disk name, disk name' with
    | .missing, _ | _, .dir _ | .dir _, .file => none
    | entry, _ => some (setEntry (setEntry disk name' entry) name .missing)) fun _ disk => disk

/-- Something is written into a directory. -/
def writeIn (name : N) (change : D → D) : DiskM N D P E Unit :=
  operation (fun disk => match disk name with
    | .dir content => some (setEntry disk name (.dir (change content)))
    | _ => none) fun left disk => setEntry disk name ((disk name).within left)

/-- `fs::copy` out of a directory that has what is copied. -/
def copyOut (name : N) (present : D → Bool) (name' : N) : DiskM N D P E Unit :=
  operation (fun disk => match disk name, disk name' with
    | .dir content, .missing | .dir content, .file =>
      if present content then some (setEntry disk name' .file) else none
    | _, _ => none) fun _ disk => match disk name' with
    | .missing => setEntry disk name' .file
    | _ => disk

/-- A look at a directory that may fail. -/
def look (name : N) (present : D → Bool) : DiskM N D P E Unit :=
  operation (fun disk => match disk name with
    | .dir content => if present content then some disk else none
    | _ => none) fun _ disk => disk

end Operations

/-! ### Rules -/

variable {Q : α → World N D P → Prop} {S : Stop E → World N D P → Prop} {world : World N D P}

/-- Whatever the fates, an operation has happened, was cut, or could not work. -/
theorem wp_operation {Q : Unit → World N D P → Prop}
    {change : (N → Entry D) → Option (N → Entry D)}
    {halfway : (D → D) → (N → Entry D) → (N → Entry D)}
    (hworks : ∀ disk, change world.disk = some disk →
      Q () { world with disk, fates := world.fates.tail })
    (hcannot : change world.disk = none → S .io { world with fates := world.fates.tail })
    (hstops : ∀ stop disk fates, stop = .crashed ∨ stop = .io →
      disk = world.disk ∨ (∃ left, disk = halfway left world.disk) →
      world.fates ≠ [] → S stop { world with disk, fates }) :
    wp (operation change halfway : DiskM N D P E Unit) Q S world := by
  obtain ⟨disk, fates, announced⟩ := world
  unfold wp operation
  cases fates with
  | nil =>
    dsimp only
    cases hchange : change disk with
    | some disk' => exact hworks disk' hchange
    | none => exact hcannot hchange
  | cons fate fates =>
    cases fate with
    | works =>
      dsimp only
      cases hchange : change disk with
      | some disk' => exact hworks disk' hchange
      | none => exact hcannot hchange
    | stops crash left =>
      refine hstops _ _ fates ?_ (.inr ⟨left, rfl⟩) nofun
      cases crash
      · exact .inr rfl
      · exact .inl rfl

theorem wp_attempt {m : DiskM N D P E α} {Q : Except (Stop E) α → World N D P → Prop}
    (h : wp m (fun a world => Q (.ok a) world) (fun stop world =>
      (stop = .crashed → S .crashed world) ∧ (stop ≠ .crashed → Q (.error stop) world)) world) :
    wp (attempt m) Q S world := by
  unfold wp attempt
  unfold wp at h
  cases hm : m world with
  | ok a world' =>
    rw [hm] at h
    exact h
  | error stop world' =>
    rw [hm] at h
    cases stop with
    | crashed => exact h.1 rfl
    | io => exact h.2 nofun
    | refused error => exact h.2 nofun

@[simp] theorem wp_disk {Q : (N → Entry D) → World N D P → Prop} :
    wp (disk : DiskM N D P E (N → Entry D)) Q S world ↔ Q world.disk world := Iff.rfl

@[simp] theorem wp_announce {Q : Unit → World N D P → Prop} (p : P) :
    wp (announce p : DiskM N D P E Unit) Q S world ↔
      Q () { world with announced := p :: world.announced } := Iff.rfl

@[simp] theorem wp_refuse (error : E) :
    wp (refuse error : DiskM N D P E α) Q S world ↔ S (.refused error) world := Iff.rfl

section Names

variable [DecidableEq N] {Q : Unit → World N D P → Prop} {name name' : N}

/-- Cut, a removal leaves what was a directory one, with less in it. -/
theorem wp_removeDirAll
    (hworks : ∀ content, world.disk name = .dir content →
      Q () { world with disk := setEntry world.disk name .missing, fates := world.fates.tail })
    (hstops : ∀ stop entry fates, (∀ content, world.disk name = .dir content → entry ≠ .file) →
      (world.fates ≠ [] ∨ ∀ content, world.disk name ≠ .dir content) →
      S stop { world with disk := setEntry world.disk name entry, fates }) :
    wp (removeDirAll name : DiskM N D P E Unit) Q S world := by
  have hsame : setEntry world.disk name (world.disk name) = world.disk :=
    Function.update_eq_self ..
  refine wp_operation (fun disk hdisk => ?_) (fun hnone => ?_) ?_
  · split at hdisk <;> cases hdisk
    next content hcontent => exact hworks content hcontent
  · have hnot (content : D) : world.disk name ≠ .dir content := fun hcontent => by
      rw [hcontent] at hnone
      cases hnone
    have hleft := hstops .io (world.disk name) world.fates.tail
      (fun content hcontent => absurd hcontent (hnot content)) (.inr hnot)
    rwa [hsame] at hleft
  · rintro stop disk fates - (rfl | ⟨left, rfl⟩) hfates
    · have hleft := hstops stop (world.disk name) fates
        (fun content hcontent => by rw [hcontent]; nofun) (.inl hfates)
      rwa [hsame] at hleft
    · refine hstops stop _ fates (fun content hcontent => ?_) (.inl hfates)
      rw [hcontent]
      nofun

/-- A rename happens or it does not. -/
theorem wp_rename
    (hworks : world.disk name ≠ .missing → (∀ content, world.disk name' ≠ .dir content) →
      Q () { world with
        disk := setEntry (setEntry world.disk name' (world.disk name)) name .missing
        fates := world.fates.tail })
    (hstops : ∀ stop fates,
      (world.fates ≠ [] ∨ world.disk name = .missing ∨ world.disk name' ≠ .missing) →
      S stop { world with fates }) :
    wp (rename name name' : DiskM N D P E Unit) Q S world := by
  refine wp_operation (fun disk hdisk => ?_) (fun hnone => hstops _ _ (.inr ?_)) ?_
  · split at hdisk <;> cases hdisk
    next hmissing hdir _ => exact hworks hmissing hdir
  · split at hnone
    · next hmissing => exact .inl hmissing
    · next hdir _ =>
      rw [hdir]
      exact .inr nofun
    · next hdir hfile =>
      rw [hfile]
      exact .inr nofun
    · cases hnone
  · rintro stop disk fates - (rfl | ⟨left, rfl⟩) hfates
    · exact hstops stop fates (.inl hfates)
    · exact hstops stop fates (.inl hfates)

end Names

/-! ### Programs that touch some names only -/

/-- Some names aside, the disk is as it was, and nothing was announced. -/
structure Confines (touched : N → Prop) (world world' : World N D P) : Prop where
  disk : ∀ name, ¬ touched name → world'.disk name = world.disk name
  announced : world'.announced = world.announced

theorem Confines.refl (touched : N → Prop) (world : World N D P) : Confines touched world world :=
  ⟨fun _ _ => rfl, rfl⟩

theorem Confines.trans {touched : N → Prop} {world world' world'' : World N D P}
    (h : Confines touched world world') (h' : Confines touched world' world'') :
    Confines touched world world'' :=
  ⟨fun name hname => (h'.disk name hname).trans (h.disk name hname),
    h'.announced.trans h.announced⟩

/-- A program that touches no other names, however it ends. -/
def Confined (touched : N → Prop) (m : DiskM N D P E α) : Prop :=
  ∀ world, wp m (fun _ => Confines touched world) (fun _ => Confines touched world) world

namespace Confined

variable {touched : N → Prop} {m : DiskM N D P E α} {β : Type}

protected theorem pure (a : α) : Confined touched (pure a : DiskM N D P E α) :=
  fun world => .refl touched world

protected theorem refuse (error : E) : Confined touched (refuse error : DiskM N D P E α) :=
  fun world => .refl touched world

protected theorem disk : Confined touched (disk : DiskM N D P E (N → Entry D)) :=
  fun world => .refl touched world

protected theorem bind {f : α → DiskM N D P E β} (h : Confined touched m)
    (hf : ∀ a, Confined touched (f a)) : Confined touched (m >>= f) := fun world =>
  (wp_bind f).mpr (wp_mono (h world)
    (fun a world' hnear => wp_mono (hf a world') (fun _ _ h => hnear.trans h)
      fun _ _ h => hnear.trans h) fun _ _ h => h)

protected theorem attempt (h : Confined touched m) : Confined touched (attempt m) := fun world =>
  wp_attempt (wp_mono (h world) (fun _ _ h => h) fun _ _ h => ⟨fun _ => h, fun _ => h⟩)

protected theorem forM {l : List α} {f : α → DiskM N D P E PUnit}
    (h : ∀ a ∈ l, Confined touched (f a)) : Confined touched (l.forM f) := fun world =>
  wp_forM (fun a ha world' hnear => wp_mono (h a ha world') (fun _ _ h => hnear.trans h)
    fun _ _ h => hnear.trans h) (.refl touched world)

protected theorem operation {change : (N → Entry D) → Option (N → Entry D)}
    {halfway : (D → D) → (N → Entry D) → (N → Entry D)}
    (hchange : ∀ disk disk', change disk = some disk' → ∀ name, ¬ touched name →
      disk' name = disk name)
    (hhalfway : ∀ left disk name, ¬ touched name → halfway left disk name = disk name) :
    Confined touched (operation change halfway : DiskM N D P E Unit) := fun world => by
  refine wp_operation (fun disk hdisk => ⟨hchange _ _ hdisk, rfl⟩) (fun _ => ⟨fun _ _ => rfl, rfl⟩) ?_
  rintro stop disk fates - (rfl | ⟨left, rfl⟩) -
  · exact ⟨fun _ _ => rfl, rfl⟩
  · exact ⟨hhalfway left _, rfl⟩

variable [DecidableEq N]

theorem createDirAll {empty : D} {name : N} (h : touched name) :
    Confined touched (createDirAll empty name : DiskM N D P E Unit) := by
  refine .operation (fun disk disk' hdisk name' hname' => ?_) fun _ _ _ _ => rfl
  have hne : name' ≠ name := fun heq => hname' (heq ▸ h)
  split at hdisk <;> cases hdisk
  · exact setEntry_of_ne _ hne
  · rfl

theorem removeDirAll {name : N} (h : touched name) :
    Confined touched (removeDirAll name : DiskM N D P E Unit) := by
  have hne {name' : N} (hname' : ¬ touched name') : name' ≠ name := fun heq => hname' (heq ▸ h)
  refine .operation (fun disk disk' hdisk name' hname' => ?_) fun _ _ name' hname' =>
    setEntry_of_ne _ (hne hname')
  split at hdisk <;> cases hdisk
  exact setEntry_of_ne _ (hne hname')

theorem removeFile {name : N} (h : touched name) :
    Confined touched (removeFile name : DiskM N D P E Unit) := by
  refine .operation (fun disk disk' hdisk name' hname' => ?_) fun _ _ _ _ => rfl
  split at hdisk <;> cases hdisk
  exact setEntry_of_ne _ fun heq => hname' (heq ▸ h)

theorem rename {name name' : N} (h : touched name) (h' : touched name') :
    Confined touched (rename name name' : DiskM N D P E Unit) := by
  refine .operation (fun disk disk' hdisk other hother => ?_) fun _ _ _ _ => rfl
  have hne : other ≠ name := fun heq => hother (heq ▸ h)
  have hne' : other ≠ name' := fun heq => hother (heq ▸ h')
  split at hdisk <;> cases hdisk
  rw [setEntry_of_ne _ hne, setEntry_of_ne _ hne']

theorem writeIn {name : N} (change : D → D) (h : touched name) :
    Confined touched (writeIn name change : DiskM N D P E Unit) := by
  have hne {name' : N} (hname' : ¬ touched name') : name' ≠ name := fun heq => hname' (heq ▸ h)
  refine .operation (fun disk disk' hdisk name' hname' => ?_) fun _ _ name' hname' =>
    setEntry_of_ne _ (hne hname')
  split at hdisk <;> cases hdisk
  exact setEntry_of_ne _ (hne hname')

theorem copyOut {name name' : N} {present : D → Bool} (h : touched name') :
    Confined touched (copyOut name present name' : DiskM N D P E Unit) := by
  have hne {other : N} (hother : ¬ touched other) : other ≠ name' := fun heq => hother (heq ▸ h)
  refine .operation (fun disk disk' hdisk other hother => ?_) fun _ disk other hother => ?_
  · split at hdisk
    · split at hdisk <;> cases hdisk
      exact setEntry_of_ne _ (hne hother)
    · split at hdisk <;> cases hdisk
      exact setEntry_of_ne _ (hne hother)
    · cases hdisk
  · cases disk name' with
    | missing => exact setEntry_of_ne _ (hne hother)
    | file | dir => rfl

omit [DecidableEq N] in
theorem look {name : N} {present : D → Bool} :
    Confined touched (look name present : DiskM N D P E Unit) := by
  refine .operation (fun disk disk' hdisk name' hname' => ?_) fun _ _ _ _ => rfl
  split at hdisk
  · split at hdisk <;> cases hdisk
    rfl
  · cases hdisk

end Confined

end Retrograd.Logic
