import Retrograd.Optimizer.Kind

/-!
# The declared state table

What a run will keep, declared from the resolved set alone: one row of slots for each parameter,
and one shared row for each **owner** that declares one. The table is as large as the closed forms
say.
-/

namespace Retrograd.Optimizer

open Logic Trainable List

/-- What a slot is called and holds. -/
def PlannedSlot.layout (slot : PlannedSlot) : String × SlotDtype := (slot.slot, slot.dtype)

/-- One marked parameter, its owner, and the slots that owner keeps for it. -/
structure PlannedParameter where
  name : String
  /-- None when no optimizer of the run can write it. -/
  optimizer : Option OptimizerKind
  slots : List PlannedSlot
deriving DecidableEq, Repr

/-- One resolved shared slot. -/
structure SharedSlot where
  owner : OptimizerKind
  slot : String
  dtype : SlotDtype
  nElements : ℕ
  nBytes : ℕ
deriving DecidableEq, Repr

/-- The persistent state one run would allocate. -/
structure OptimizerPlan where
  chosen : OptimizerKind
  parameters : List PlannedParameter
  shared : List SharedSlot
deriving DecidableEq, Repr

namespace PlannedParameter

/-- Whether this parameter keeps an F32 master copy. -/
def keepsMasterCopy (parameter : PlannedParameter) : Bool :=
  parameter.slots.any fun slot => slot.slot == masterSlot

/-- The layout version of the table this parameter is allocated under. -/
def layoutVersion (parameter : PlannedParameter) : Option ℕ :=
  parameter.optimizer.map fun optimizer =>
    optimizer.layoutVersionWithMaster parameter.keepsMasterCopy

end PlannedParameter

/-- Total persistent bytes, parameters and shared state together. -/
def OptimizerPlan.stateBytes (plan : OptimizerPlan) : ℕ :=
  satSum u64Max ((plan.parameters.flatMap PlannedParameter.slots).map PlannedSlot.nBytes ++
    plan.shared.map SharedSlot.nBytes)

namespace OptimizerKind

/-- The row of one entry under a given owner. -/
def planParameter (owner : Option OptimizerKind) (entry : TrainableEntry) : PlannedParameter :=
  ⟨entry.name, owner, (owner.map fun owner =>
    owner.slotDefinitions.map fun slot => slot.resolve entry).getD []⟩

/-- Those that own something, in the order they are first seen. -/
def owners (parameters : List PlannedParameter) : List OptimizerKind :=
  parameters.foldl (fun owners parameter =>
    match parameter.optimizer with
    | some owner => if owner ∈ owners then owners else owners ++ [owner]
    | none => owners) []

def sharedSlots (owner : OptimizerKind) : List SharedSlot :=
  owner.sharedSlotDefinitions.map fun slot =>
    ⟨owner, slot.name, slot.dtype, slot.sharedElements,
      satMul u64Max slot.sharedElements slot.dtype.bytes⟩

/-- The table with the owner of each parameter given. -/
def planWith (kind : OptimizerKind) (set : TrainableSet)
    (ownerOf : TrainableEntry → Option OptimizerKind) : OptimizerPlan :=
  let parameters := set.entries.map fun entry => planParameter (ownerOf entry) entry
  ⟨kind, parameters, (owners parameters).flatMap sharedSlots⟩

/-- The master copy of a half-precision parameter, last in the slot list of its owner. -/
def addMaster (parameter : PlannedParameter) (entry : TrainableEntry) : PlannedParameter :=
  if parameter.optimizer.isNone then parameter
  else
    match masterSlotDefinition entry.dtype with
    | some master => { parameter with slots := parameter.slots ++ [master.resolve entry] }
    | none => parameter

/-- The same table for a run that may keep master copies. -/
def planWithMaster (kind : OptimizerKind) (set : TrainableSet) (masterWeights : Bool)
    (ownerOf : TrainableEntry → Option OptimizerKind) : OptimizerPlan :=
  let plan := kind.planWith set ownerOf
  if masterWeights then
    { plan with parameters := List.zipWith addMaster plan.parameters set.entries }
  else plan

/-- The table of a run without an assignment of its own. -/
def optimizerPlan (kind : OptimizerKind) (set : TrainableSet) (masterWeights : Bool) :
    OptimizerPlan :=
  kind.planWithMaster set masterWeights kind.assign

/-! ### The rows -/

variable {kind : OptimizerKind} {set : TrainableSet} {masterWeights : Bool}

/-- The row of one entry, with its master copy. -/
def plannedParameter (kind : OptimizerKind) (masterWeights : Bool) (entry : TrainableEntry) :
    PlannedParameter :=
  let parameter := planParameter (kind.assign entry) entry
  if masterWeights then addMaster parameter entry else parameter

theorem parameters_optimizerPlan : (kind.optimizerPlan set masterWeights).parameters =
    set.entries.map (kind.plannedParameter masterWeights) := by
  rw [optimizerPlan, planWithMaster]
  cases masterWeights with
  | false => rfl
  | true =>
    change List.zipWith addMaster (set.entries.map _) set.entries = _
    rw [zipWith_map_left, zipWith_self]
    rfl

theorem shared_optimizerPlan : (kind.optimizerPlan set masterWeights).shared =
    (owners (set.entries.map fun entry =>
      planParameter (kind.assign entry) entry)).flatMap sharedSlots := by
  rw [optimizerPlan, planWithMaster]
  cases masterWeights <;> rfl

/-- The master slots of one row. -/
def masterSlots (kind : OptimizerKind) (masterWeights : Bool) (entry : TrainableEntry) :
    List PlannedSlot :=
  if masterWeights ∧ (kind.assign entry).isSome then
    (masterSlotDefinition entry.dtype).toList.map fun slot => slot.resolve entry
  else []

theorem name_plannedParameter (entry : TrainableEntry) :
    (kind.plannedParameter masterWeights entry).name = entry.name := by
  rw [plannedParameter, addMaster]
  split_ifs
  · rfl
  · cases masterSlotDefinition entry.dtype <;> rfl
  · rfl

theorem optimizer_plannedParameter (entry : TrainableEntry) :
    (kind.plannedParameter masterWeights entry).optimizer = kind.assign entry := by
  rw [plannedParameter, addMaster]
  split_ifs
  · rfl
  · cases masterSlotDefinition entry.dtype <;> rfl
  · rfl

variable {entry : TrainableEntry} {owner : OptimizerKind}

/-- A row holds the slots of its owner and then its master copy. -/
theorem slots_plannedParameter (h : kind.assign entry = some owner) :
    (kind.plannedParameter masterWeights entry).slots =
      owner.slotDefinitions.map (fun slot => slot.resolve entry) ++
        kind.masterSlots masterWeights entry := by
  rw [plannedParameter, addMaster, masterSlots, h]
  cases masterWeights with
  | false => exact (append_nil _).symm
  | true => cases masterSlotDefinition entry.dtype <;> simp [planParameter]

theorem slots_plannedParameter_none (h : kind.assign entry = none) :
    (kind.plannedParameter masterWeights entry).slots = [] := by
  rw [plannedParameter, addMaster, h]
  cases masterWeights <;> rfl

/-! ### Sizes -/

theorem satSum_masterSlots (h : kind.assign entry = some owner) :
    satSum u64Max (owner.slotDefinitions.map (fun slot => (slot.resolve entry).nBytes) ++
        (kind.masterSlots masterWeights entry).map PlannedSlot.nBytes) =
      kind.entryStateBytes masterWeights entry := by
  rw [satSum_append, satSum_slotDefinitions, masterSlots, entryStateBytes, h]
  cases masterWeights with
  | false => rfl
  | true =>
    cases hmaster : masterSlotDefinition entry.dtype with
    | none => simp [satSum]
    | some slot => simp [satSum_eq, satAdd_min_right]

/-- A row is as large as the closed form of its entry. -/
theorem satSum_plannedParameter (h : (kind.assign entry).isSome) :
    satSum u64Max ((kind.plannedParameter masterWeights entry).slots.map PlannedSlot.nBytes) =
      kind.entryStateBytes masterWeights entry := by
  obtain ⟨owner, howner⟩ := Option.isSome_iff_exists.mp h
  rw [slots_plannedParameter howner, map_append, map_map]
  exact satSum_masterSlots howner

/-- Whether this optimizer keeps a codebook. -/
def declaresCodebook (kind : OptimizerKind) : Bool := !kind.sharedSlotDefinitions.isEmpty

/-- The bytes of one codebook. -/
def codebookBytes : ℕ := gefenCodebookLevels * SlotDtype.f32.bytes

theorem satSum_sharedSlots (owner : OptimizerKind) :
    satSum u64Max ((sharedSlots owner).map SharedSlot.nBytes) =
      if owner.declaresCodebook then codebookBytes else 0 := by
  rcases owner with _ | _ | _ | ⟨_ | _, blockSize, minNumel⟩ <;> rfl

private theorem sum_ite_countP {α : Type} (test : α → Bool) (n : ℕ) (xs : List α) :
    (xs.map fun x => if test x then n else 0).sum = n * xs.countP test := by
  induction xs with
  | nil => rfl
  | cons x xs ih =>
    rw [map_cons, sum_cons, ih, countP_cons]
    split_ifs
    · rw [Nat.mul_add, Nat.mul_one, Nat.add_comm]
    · rw [Nat.zero_add, Nat.add_zero]

/-- The optimizers that own something in a set. -/
def owning (kind : OptimizerKind) (set : TrainableSet) : List OptimizerKind :=
  (set.entries.filterMap kind.assign).dedup

/-- The owners that are collected: nobody twice, and everybody who owns something. -/
theorem owners_spec (parameters : List PlannedParameter) :
    (owners parameters).Nodup ∧
      ∀ owner, owner ∈ owners parameters ↔ owner ∈ parameters.filterMap (·.optimizer) := by
  induction parameters using List.reverseRecOn with
  | nil => exact ⟨nodup_nil, fun owner => Iff.rfl⟩
  | append_singleton parameters parameter ih =>
    obtain ⟨hnodup, hmem⟩ := ih
    rw [owners, foldl_append, foldl_cons, foldl_nil, ← owners,
      filterMap_append]
    cases hoptimizer : parameter.optimizer with
    | none =>
      have hlast : List.filterMap (·.optimizer) [parameter] = [] := by simp [hoptimizer]
      rw [hlast, append_nil]
      exact ⟨hnodup, hmem⟩
    | some owner =>
      have hlast : List.filterMap (·.optimizer) [parameter] = [owner] := by simp [hoptimizer]
      dsimp only
      rw [hlast]
      split_ifs with hseen
      · refine ⟨hnodup, fun other => ?_⟩
        rw [hmem, mem_append, mem_singleton]
        exact ⟨.inl, fun h => h.elim id fun h => h ▸ (hmem owner).mp hseen⟩
      · refine ⟨nodup_append'.mpr ⟨hnodup, nodup_singleton _, ?_⟩, fun other => ?_⟩
        · exact disjoint_singleton.mpr hseen
        · rw [mem_append, mem_append, hmem]

theorem owners_perm : (owners (set.entries.map fun entry =>
    planParameter (kind.assign entry) entry)).Perm (kind.owning set) := by
  obtain ⟨hnodup, hmem⟩ := owners_spec (set.entries.map fun entry =>
    planParameter (kind.assign entry) entry)
  refine (perm_ext_iff_of_nodup hnodup (nodup_dedup _)).mpr fun owner => ?_
  rw [hmem, filterMap_map]
  exact mem_dedup.symm

/-- **The declared table costs what the closed forms say**, and a codebook for each owner that
keeps one. -/
theorem stateBytes_optimizerPlan (hall : ∀ entry ∈ set.entries, (kind.assign entry).isSome) :
    (kind.optimizerPlan set masterWeights).stateBytes =
      satAdd u64Max (kind.stateBytesWithMaster set masterWeights)
        (codebookBytes * (kind.owning set).countP declaresCodebook) := by
  rw [OptimizerPlan.stateBytes, parameters_optimizerPlan, shared_optimizerPlan, satSum_append,
    map_flatMap, map_flatMap, satSum_flatMap, satSum_flatMap, map_map]
  have hparameters : set.entries.map ((fun parameter => satSum u64Max
      (parameter.slots.map PlannedSlot.nBytes)) ∘ kind.plannedParameter masterWeights) =
      set.entries.map (kind.entryStateBytes masterWeights) :=
    map_congr_left fun entry hentry => satSum_plannedParameter (hall entry hentry)
  rw [hparameters, funext satSum_sharedSlots, satSum_eq ((owners _).map _), sum_ite_countP,
    satAdd_min_right, owners_perm.countP_eq, stateBytesWithMaster]

/-! ### Layouts -/

theorem layout_masterSlots (entry : TrainableEntry) :
    (kind.masterSlots masterWeights entry).map PlannedSlot.layout =
      if (kind.masterSlots masterWeights entry).isEmpty then [] else [(masterSlot, .f32)] := by
  rw [masterSlots]
  by_cases hkeeps : masterWeights ∧ (kind.assign entry).isSome
  · rw [if_pos hkeeps]
    rcases entry.dtype with _ | _ | _ | name <;> rfl
  · rw [if_neg hkeeps]
    rfl

theorem keepsMasterCopy_plannedParameter (h : kind.assign entry = some owner) :
    (kind.plannedParameter masterWeights entry).keepsMasterCopy =
      !(kind.masterSlots masterWeights entry).isEmpty := by
  have hown : (owner.slotDefinitions.map fun slot => slot.resolve entry).any
      (fun slot => slot.slot == masterSlot) = false := by
    rcases owner with _ | _ | _ | ⟨_ | _, blockSize, minNumel⟩ <;> rfl
  rw [PlannedParameter.keepsMasterCopy, slots_plannedParameter h, any_append, hown,
    Bool.false_or, masterSlots]
  split_ifs
  · rcases entry.dtype with _ | _ | _ | name <;> rfl
  · rfl

/-- The chosen optimizer and AdamW are told apart by their names. -/
theorem owner_ext {entry entry' : TrainableEntry} {owner owner' : OptimizerKind}
    (h : kind.assign entry = some owner) (h' : kind.assign entry' = some owner')
    (hname : owner.asStr = owner'.asStr) : owner = owner' := by
  have hadamW {kind : OptimizerKind} (h : kind.asStr = "adamw") : kind = .adamW := by
    rcases kind with _ | _ | _ | layout
    · rfl
    · exact absurd h (by decide)
    · exact absurd h (by decide)
    · exact absurd (show "gefen" = "adamw" from h) (by decide)
  rcases of_assign h with rfl | rfl
  · rcases of_assign h' with rfl | rfl
    · rfl
    · exact hadamW hname
  · exact (hadamW hname.symm).symm

/-- **Equal versions, equal tables**: two parameters with owners of one name and one layout version
have slots of the same names and dtypes. -/
theorem layout_eq {p q : PlannedParameter}
    (hp : p ∈ (kind.optimizerPlan set masterWeights).parameters)
    (hq : q ∈ (kind.optimizerPlan set masterWeights).parameters)
    (hname : p.optimizer.map asStr = q.optimizer.map asStr)
    (hversion : p.layoutVersion = q.layoutVersion) :
    p.slots.map PlannedSlot.layout = q.slots.map PlannedSlot.layout := by
  rw [parameters_optimizerPlan] at hp hq
  obtain ⟨entry, -, rfl⟩ := mem_map.mp hp
  obtain ⟨entry', -, rfl⟩ := mem_map.mp hq
  rw [optimizer_plannedParameter, optimizer_plannedParameter] at hname
  rw [PlannedParameter.layoutVersion, PlannedParameter.layoutVersion, optimizer_plannedParameter,
    optimizer_plannedParameter] at hversion
  rcases h : kind.assign entry with _ | owner
  · rw [h] at hname
    rw [slots_plannedParameter_none h,
      slots_plannedParameter_none (Option.map_eq_none_iff.mp hname.symm)]
  · rw [h] at hname hversion
    obtain ⟨owner', h', howner⟩ := Option.map_eq_some_iff.mp hname.symm
    obtain rfl := owner_ext h h' howner.symm
    rw [h', Option.map_some, Option.map_some, keepsMasterCopy_plannedParameter h,
      keepsMasterCopy_plannedParameter h'] at hversion
    have hmaster : (kind.masterSlots masterWeights entry).isEmpty =
        (kind.masterSlots masterWeights entry').isEmpty := by
      have htoNat := Nat.add_left_cancel (Option.some.inj hversion)
      revert htoNat
      generalize (kind.masterSlots masterWeights entry).isEmpty = keeps
      generalize (kind.masterSlots masterWeights entry').isEmpty = keeps'
      revert keeps keeps'
      decide
    rw [slots_plannedParameter h, slots_plannedParameter h', map_append, map_append,
      layout_masterSlots, layout_masterSlots, hmaster, map_map, map_map]
    rfl

end OptimizerKind

end Retrograd.Optimizer
