import Retrograd.Logic.Except
import Retrograd.Optimizer.Planned

/-!
# The live state table

A table the runtime allocated is compared with the declared one row by row, each found by its
owner and its slot. Of several live rows under one **key** the first is the one that is compared.
-/

namespace Retrograd.Optimizer

open Logic Trainable List

/-- One row of a table of either scope: who owns the slot, its name and its bytes. -/
structure Row where
  owner : String
  slot : String
  nBytes : ℕ
deriving DecidableEq, Repr

/-- What a row is found by. -/
def Row.key (row : Row) : String × String := (row.owner, row.slot)

/-- The texts a comparison refuses with. -/
structure Refusals where
  missing : Row → String
  resized : Row → ℕ → String
  foreign : Row → String

/-- One declared row against the live table. -/
def checkDeclared (texts : Refusals) (live : List Row) (row : Row) : Except Error Unit :=
  match live.find? fun found => found.key == row.key with
  | none => .error (.runtime (texts.missing row))
  | some found =>
    if row.nBytes ≠ found.nBytes then .error (.runtime (texts.resized row found.nBytes))
    else .ok ()

/-- One live row against the declared table. -/
def checkForeign (texts : Refusals) (declared : List Row) (row : Row) : Except Error Unit :=
  if declared.any fun found => found.key == row.key then .ok ()
  else .error (.runtime (texts.foreign row))

/-- Refuses a live table that lacks a declared row, has one of another size, or has a foreign
one. -/
def checkRows (texts : Refusals) (declared live : List Row) : Except Error Unit := do
  declared.forM (checkDeclared texts live)
  live.forM (checkForeign texts declared)

namespace OptimizerPlan

/-- The rows of the parameters. -/
def slotRows (plan : OptimizerPlan) : List Row :=
  plan.parameters.flatMap fun parameter =>
    parameter.slots.map fun slot => ⟨parameter.name, slot.slot, slot.nBytes⟩

/-- The rows of the shared scope. -/
def sharedRows (plan : OptimizerPlan) : List Row :=
  plan.shared.map fun slot => ⟨slot.owner.asStr, slot.slot, slot.nBytes⟩

/-- Refuses a live shared table that is not the declared one. -/
def checkLiveShared (plan : OptimizerPlan) (live : List Row) : Except Error Unit :=
  let chosen := plan.chosen.asStr
  checkRows
    { missing := fun row => "optimizer " ++ chosen ++ " declares a shared '" ++ row.slot ++
        "' slot for '" ++ row.owner ++ "' that the runtime did not allocate"
      resized := fun row liveBytes => "shared optimizer slot " ++ row.owner ++ "/" ++ row.slot ++
        " was declared as " ++ toString row.nBytes ++ " byte(s) and allocated as " ++
        toString liveBytes
      foreign := fun row => "the runtime allocated a shared '" ++ row.slot ++ "' slot for '" ++
        row.owner ++ "' that optimizer " ++ chosen ++ " does not declare" }
    plan.sharedRows live

/-- Refuses a live parameter table that is not the declared one. -/
def checkLive (plan : OptimizerPlan) (live : List Row) : Except Error Unit :=
  let chosen := plan.chosen.asStr
  checkRows
    { missing := fun row => "optimizer " ++ chosen ++ " declares a '" ++ row.slot ++
        "' slot for '" ++ row.owner ++ "' that the runtime did not allocate"
      resized := fun row liveBytes => "optimizer slot " ++ row.owner ++ "/" ++ row.slot ++
        " was declared as " ++ toString row.nBytes ++ " byte(s) and allocated as " ++
        toString liveBytes
      foreign := fun row => "the runtime allocated a '" ++ row.slot ++ "' slot for '" ++
        row.owner ++ "' that optimizer " ++ chosen ++ " does not declare" }
    plan.slotRows live

end OptimizerPlan

/-! ### The first row of every key -/

/-- A table without the later rows of a key. -/
def firstRows : List Row → List Row
  | [] => []
  | row :: rest => row :: (firstRows rest).filter fun later => later.key ≠ row.key

variable {declared live : List Row} {texts : Refusals}

theorem mem_firstRows {row : Row} :
    row ∈ firstRows live ↔ (live.find? fun found => found.key == row.key) = some row := by
  induction live with
  | nil => exact ⟨fun h => absurd h not_mem_nil, fun h => by cases h⟩
  | cons first rest ih =>
    rw [firstRows, mem_cons, mem_filter, find?_cons, ih]
    by_cases hkey : first.key = row.key
    · rw [hkey, beq_self_eq_true]
      constructor
      · rintro (rfl | ⟨-, hne⟩)
        · rfl
        · exact absurd rfl (of_decide_eq_true hne)
      · exact fun h => .inl (Option.some.inj h).symm
    · rw [beq_eq_false_iff_ne.mpr hkey]
      constructor
      · rintro (rfl | ⟨hfound, -⟩)
        · exact absurd rfl hkey
        · exact hfound
      · exact fun h => .inr ⟨h, decide_eq_true (Ne.symm hkey)⟩

theorem nodup_keys_firstRows (live : List Row) : ((firstRows live).map Row.key).Nodup := by
  induction live with
  | nil => exact nodup_nil
  | cons first rest ih =>
    rw [firstRows, map_cons, nodup_cons]
    refine ⟨fun hmem => ?_, ih.sublist (filter_sublist.map _)⟩
    obtain ⟨later, hlater, hkey⟩ := mem_map.mp hmem
    exact absurd hkey (of_decide_eq_true (mem_filter.mp hlater).2)

theorem firstRows_eq_self (h : (live.map Row.key).Nodup) : firstRows live = live := by
  induction live with
  | nil => rfl
  | cons first rest ih =>
    rw [map_cons, nodup_cons] at h
    rw [firstRows, ih h.2, filter_eq_self.mpr]
    exact fun later hlater => decide_eq_true fun hkey => h.1 (hkey ▸ mem_map_of_mem hlater)

/-- Every key of a table is the key of a first row. -/
theorem exists_firstRows {row : Row} (h : row ∈ live) :
    ∃ first ∈ firstRows live, first.key = row.key := by
  have hsome : (live.find? fun found => found.key == row.key).isSome :=
    find?_isSome.mpr ⟨row, h, beq_self_eq_true _⟩
  obtain ⟨first, hfirst⟩ := Option.isSome_iff_exists.mp hsome
  have hfound := find?_some hfirst
  have hkey : first.key = row.key := eq_of_beq hfound
  exact ⟨first, mem_firstRows.mpr (hkey ▸ hfirst), hkey⟩

theorem mem_of_mem_firstRows {row : Row} (h : row ∈ firstRows live) : row ∈ live :=
  mem_of_find?_eq_some (mem_firstRows.mp h)

/-! ### What a comparison accepts -/

theorem checkDeclared_ok_iff {row : Row} :
    checkDeclared texts live row = .ok ⟨⟩ ↔ row ∈ firstRows live := by
  rw [mem_firstRows, checkDeclared]
  cases hfound : live.find? fun found => found.key == row.key with
  | none => exact ⟨(fun h => by cases h), (fun h => by cases h)⟩
  | some found =>
    have hsame := find?_some hfound
    have hkey : found.key = row.key := eq_of_beq hsame
    constructor
    · intro h
      dsimp only at h
      split_ifs at h with hbytes
      -- the key and the bytes are the whole row
      have hrow : found = row := by
        cases found
        cases row
        simp only [Row.key, Prod.mk.injEq] at hkey hbytes
        simp only [Row.mk.injEq]
        exact ⟨hkey.1, hkey.2, (not_not.mp hbytes).symm⟩
      rw [hrow]
    · intro h
      obtain rfl := Option.some.inj h
      exact if_neg (not_not.mpr rfl)

theorem checkForeign_ok_iff {row : Row} :
    checkForeign texts declared row = .ok ⟨⟩ ↔ row.key ∈ declared.map Row.key := by
  rw [checkForeign, mem_map]
  by_cases hany : (declared.any fun found => found.key == row.key) = true
  · rw [if_pos hany]
    obtain ⟨found, hfound, hkey⟩ := any_eq_true.mp hany
    exact iff_of_true rfl ⟨found, hfound, eq_of_beq hkey⟩
  · rw [if_neg hany]
    refine iff_of_false (fun h => by cases h) ?_
    rintro ⟨found, hfound, hkey⟩
    exact hany (any_eq_true.mpr ⟨found, hfound, beq_iff_eq.mpr hkey⟩)

/-- A comparison accepts a table when its first rows are the declared ones. -/
theorem checkRows_ok_iff (hdeclared : (declared.map Row.key).Nodup) :
    checkRows texts declared live = .ok ⟨⟩ ↔ (firstRows live).Perm declared := by
  have hboth : checkRows texts declared live = .ok ⟨⟩ ↔
      (∀ row ∈ declared, row ∈ firstRows live) ∧ ∀ row ∈ live, row.key ∈ declared.map Row.key := by
    rw [← forM_ok_iff.trans (forall₂_congr fun row _ => @checkDeclared_ok_iff live texts row),
      ← forM_ok_iff.trans (forall₂_congr fun row _ => @checkForeign_ok_iff declared texts row)]
    constructor
    · intro h
      obtain ⟨⟨⟩, hfirst, hrest⟩ := ok_of_bind h
      exact ⟨hfirst, hrest⟩
    · rintro ⟨hfirst, hrest⟩
      rw [checkRows, hfirst]
      exact hrest
  rw [hboth, perm_ext_iff_of_nodup (nodup_keys_firstRows live).of_map hdeclared.of_map]
  constructor
  · rintro ⟨hfound, hown⟩ row
    refine ⟨fun hrow => ?_, hfound row⟩
    -- the declared row under its key is the first one, so it is this one
    obtain ⟨own, hmem, hkey⟩ := mem_map.mp (hown row (mem_of_mem_firstRows hrow))
    exact inj_on_of_nodup_map (nodup_keys_firstRows live) (hfound own hmem) hrow hkey ▸ hmem
  · intro hsame
    refine ⟨fun row => (hsame row).mpr, fun row hrow => ?_⟩
    obtain ⟨first, hfirst, hkey⟩ := exists_firstRows hrow
    exact hkey ▸ mem_map_of_mem ((hsame first).mp hfirst)

/-- The comparison accepts exactly the permutations of the declared table, unless a key that the
live table has twice goes unseen. -/
theorem checkRows_exact_iff (hdeclared : (declared.map Row.key).Nodup) :
    (checkRows texts declared live = .ok ⟨⟩ ↔ live.Perm declared) ↔
      (live.map Row.key).Nodup ∨ ¬ (firstRows live).Perm declared := by
  rw [checkRows_ok_iff hdeclared]
  by_cases hnodup : (live.map Row.key).Nodup
  · rw [firstRows_eq_self hnodup]
    exact iff_of_true Iff.rfl (.inl hnodup)
  · have hne : ¬ live.Perm declared :=
      fun hperm => hnodup ((hperm.map Row.key).nodup_iff.mpr hdeclared)
    rw [or_iff_right hnodup]
    exact ⟨fun h hfirst => hne (h.mp hfirst), fun h => iff_of_false h hne⟩

/-! ### The declared rows -/

variable {kind : OptimizerKind} {set : TrainableSet} {masterWeights : Bool}

namespace OptimizerKind

/-- The slots of one row have names of their own. -/
theorem nodup_slots (entry : TrainableEntry) :
    ((kind.plannedParameter masterWeights entry).slots.map PlannedSlot.slot).Nodup := by
  rcases h : kind.assign entry with _ | owner
  · rw [slots_plannedParameter_none h]
    exact nodup_nil
  · have hmaster : (kind.masterSlots masterWeights entry).map PlannedSlot.slot = [] ∨
        (kind.masterSlots masterWeights entry).map PlannedSlot.slot = [masterSlot] := by
      rw [masterSlots]
      split_ifs
      · rcases entry.dtype with _ | _ | _ | name <;> simp [masterSlotDefinition,
          SlotDefinition.resolve]
      · exact .inl rfl
    rw [slots_plannedParameter h, map_append, map_map]
    rcases hmaster with hmaster | hmaster <;> rw [hmaster] <;>
      rcases owner with _ | _ | _ | ⟨_ | _, blockSize, minNumel⟩ <;>
      simp [slotDefinitions, SlotDefinition.resolve, masterSlot]

/-- Distinct names make distinct rows. -/
theorem nodup_slotRows (hnames : (set.entries.map fun entry => entry.name).Nodup) :
    ((kind.optimizerPlan set masterWeights).slotRows.map Row.key).Nodup := by
  rw [OptimizerPlan.slotRows, parameters_optimizerPlan, flatMap_map, map_flatMap,
    nodup_flatMap]
  constructor
  · intro entry hentry
    rw [map_map]
    refine Nodup.of_map Prod.snd ?_
    rw [map_map]
    exact nodup_slots entry
  · refine (pairwise_map.mp hnames).imp fun {entry entry'} hne => ?_
    intro key hkey hkey'
    obtain ⟨row, hrow, rfl⟩ := mem_map.mp hkey
    obtain ⟨row', hrow', heq⟩ := mem_map.mp hkey'
    obtain ⟨slot, -, rfl⟩ := mem_map.mp hrow
    obtain ⟨slot', -, rfl⟩ := mem_map.mp hrow'
    have hname := congrArg Prod.fst heq
    change (kind.plannedParameter masterWeights entry').name =
      (kind.plannedParameter masterWeights entry).name at hname
    rw [name_plannedParameter, name_plannedParameter] at hname
    exact hne hname.symm

/-- Only the chosen optimizer may declare a shared row, and it declares one at most. -/
theorem nodup_sharedRows :
    ((kind.optimizerPlan set masterWeights).sharedRows.map Row.key).Nodup := by
  rw [OptimizerPlan.sharedRows, shared_optimizerPlan, map_flatMap, map_flatMap,
    nodup_flatMap]
  obtain ⟨hnodup, hmem⟩ := owners_spec (set.entries.map fun entry =>
    planParameter (kind.assign entry) entry)
  constructor
  · intro owner _
    rcases owner with _ | _ | _ | ⟨_ | _, blockSize, minNumel⟩ <;>
      simp [sharedSlots, sharedSlotDefinitions]
  · have hown : ∀ owner ∈ owners (set.entries.map fun entry =>
        planParameter (kind.assign entry) entry), owner = kind ∨ owner = .adamW := by
      intro owner howner
      obtain ⟨parameter, hparameter, hoptimizer⟩ := mem_filterMap.mp ((hmem owner).mp howner)
      obtain ⟨entry, -, rfl⟩ := mem_map.mp hparameter
      exact of_assign hoptimizer
    refine hnodup.imp_of_mem fun {owner owner'} h h' hne => ?_
    rcases hown owner h with rfl | rfl
    · rcases hown owner' h' with rfl | rfl
      · exact absurd rfl hne
      · exact disjoint_nil_right _
    · exact disjoint_nil_left _

end OptimizerKind

/-- **The declared optimizer state.** Every parameter has an owner that can write its dtype, or
none. When all are owned the table is as large as the closed form and the codebooks of the owners.
Parameters with owners of one name and one layout version have slots of the same names and dtypes.
The comparison with a live table, of either scope, accepts exactly its permutations as long as the
live table has no key twice, or its first rows are not a permutation of the declared one. -/
theorem optimizerPlan_spec (kind : OptimizerKind) (set : TrainableSet) (masterWeights : Bool)
    (hnames : (set.entries.map fun entry => entry.name).Nodup) :
    ((kind.optimizerPlan set masterWeights).parameters.map fun parameter =>
        (parameter.name, parameter.optimizer)) =
      (set.entries.map fun entry => (entry.name, kind.assign entry)) ∧
    (∀ entry ∈ set.entries, ∀ owner, kind.assign entry = some owner →
      owner.supportsDtype entry.dtype = true) ∧
    ((∀ entry ∈ set.entries, (kind.assign entry).isSome) →
      (kind.optimizerPlan set masterWeights).stateBytes =
        satAdd u64Max (kind.stateBytesWithMaster set masterWeights)
          (OptimizerKind.codebookBytes *
            (kind.owning set).countP OptimizerKind.declaresCodebook)) ∧
    (∀ p ∈ (kind.optimizerPlan set masterWeights).parameters,
      ∀ q ∈ (kind.optimizerPlan set masterWeights).parameters,
        p.optimizer.map OptimizerKind.asStr = q.optimizer.map OptimizerKind.asStr →
        p.layoutVersion = q.layoutVersion →
          p.slots.map PlannedSlot.layout = q.slots.map PlannedSlot.layout) ∧
    (∀ live,
      (((kind.optimizerPlan set masterWeights).checkLive live = .ok ⟨⟩ ↔
          live.Perm (kind.optimizerPlan set masterWeights).slotRows) ↔
        (live.map Row.key).Nodup ∨
          ¬ (firstRows live).Perm (kind.optimizerPlan set masterWeights).slotRows) ∧
      (((kind.optimizerPlan set masterWeights).checkLiveShared live = .ok ⟨⟩ ↔
          live.Perm (kind.optimizerPlan set masterWeights).sharedRows) ↔
        (live.map Row.key).Nodup ∨
          ¬ (firstRows live).Perm (kind.optimizerPlan set masterWeights).sharedRows)) := by
  refine ⟨?_, fun entry _ owner h => OptimizerKind.supportsDtype_of_assign h,
    OptimizerKind.stateBytes_optimizerPlan, fun p hp q hq => OptimizerKind.layout_eq hp hq,
    fun live => ⟨checkRows_exact_iff (OptimizerKind.nodup_slotRows hnames),
      checkRows_exact_iff OptimizerKind.nodup_sharedRows⟩⟩
  rw [OptimizerKind.parameters_optimizerPlan, List.map_map]
  exact List.map_congr_left fun entry _ => Prod.ext (OptimizerKind.name_plannedParameter entry)
    (OptimizerKind.optimizer_plannedParameter entry)

/-- A set of one matrix, and the one that Gefen takes with its codebook. -/
def oneMatrix : TrainableSet :=
  ⟨.full, [⟨⟨"blk.0.attn_q.weight", [64, 64, 1, 1], .f32, 4096, 16384, 1⟩, .base⟩], []⟩

def quantized : OptimizerKind := .gefen ⟨.quantizedM, 1024, 0⟩

/-- Indices, scales, second moments and one codebook. -/
theorem optimizerPlan_oneMatrix : (quantized.optimizerPlan oneMatrix true).stateBytes =
      satAdd u64Max (quantized.stateBytesWithMaster oneMatrix true)
        (OptimizerKind.codebookBytes *
          (quantized.owning oneMatrix).countP OptimizerKind.declaresCodebook) ∧
    (quantized.optimizerPlan oneMatrix true).stateBytes = 4096 + 16 + 16 + 1024 :=
  ⟨(optimizerPlan_spec quantized oneMatrix true (List.nodup_singleton _)).2.2.1 (by decide),
    by decide⟩

/-- A live table with a row twice, the second of another size, passes. -/
theorem checkLive_twice :
    (OptimizerKind.muon.optimizerPlan oneMatrix false).checkLive
        [⟨"blk.0.attn_q.weight", "momentum", 16384⟩, ⟨"blk.0.attn_q.weight", "momentum", 1⟩] =
      .ok ⟨⟩ ∧
    ¬ [⟨"blk.0.attn_q.weight", "momentum", 16384⟩, ⟨"blk.0.attn_q.weight", "momentum", 1⟩].Perm
      (OptimizerKind.muon.optimizerPlan oneMatrix false).slotRows := by
  refine ⟨by decide, fun h => absurd h.length_eq (by decide)⟩

end Retrograd.Optimizer
