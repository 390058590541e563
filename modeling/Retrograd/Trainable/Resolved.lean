import Retrograd.Trainable.Selected

/-!
# From the tensors taken to the set

A resolution that ends well has taken tensors that passed every screen, and **parts** them into those
that stay and those dropped for one that stays. Freezing looks up two canonical names, so a tensor
taken has another allocation than the tensors of these names.
-/

namespace Retrograd.Trainable

open Logic List

variable {inventory : TensorInventory} {policy : TrainablePolicy} {selector : TrainableSelector}
  {set : TrainableSet}

/-! ### Frozen allocations -/

variable {tensor : TensorDesc}

theorem Distinct.get_eq (h : Distinct inventory.tensors) (hmem : tensor ∈ inventory.tensors) :
    inventory.get tensor.name = some tensor := by
  unfold TensorInventory.get
  cases hfind : inventory.tensors.find? fun other => other.name == tensor.name with
  | none =>
    exact absurd (beq_self_eq_true tensor.name) (find?_eq_none.mp hfind tensor hmem)
  | some other =>
    have hname := find?_some hfind
    rw [h.eq_of_name (mem_of_find?_eq_some hfind) hmem (beq_iff_eq.mp hname)]

theorem not_frozen (h : frozenReason inventory tensor = none) :
    aliases inventory tensor inputEmbedding = false ∧
      aliases inventory tensor rotaryTable = false ∧ tensor.isRotaryConstant = false := by
  unfold frozenReason at h
  split_ifs at h with hhead hembedding hrotary
  rw [Bool.or_eq_true, not_or, Bool.not_eq_true, Bool.not_eq_true] at hrotary
  exact ⟨Bool.eq_false_iff.mpr hembedding, hrotary⟩

/-- A tensor that is no alias of a name has another allocation than the tensor of that name. -/
theorem Distinct.storage_ne (h : Distinct inventory.tensors) {tensor frozen : TensorDesc}
    (halias : aliases inventory tensor frozen.name = false) (hfrozen : frozen ∈ inventory.tensors)
    (hid : tensor.storageId ≠ 0) : tensor.storageId ≠ frozen.storageId := by
  intro hsame
  have hid : (tensor.storageId != 0) = true := bne_iff_ne.mpr hid
  rw [aliases, h.get_eq hfrozen, hid, hsame] at halias
  simp at halias

/-! ### What was taken -/

/-- A tensor the policy takes. -/
def Taken (inventory : TensorInventory) (policy : TrainablePolicy) (selector : TrainableSelector)
    (tensor : TensorDesc) : Prop :=
  match policy with
  | .lora => False
  | .full => frozenReason inventory tensor = none ∧
      ∃ row, architectureCapability inventory.architecture = some row ∧
        row.admits tensor.name = true
  | .part | .hybrid => ∃ layers, selector.layers.resolve inventory.nLayer = .ok layers ∧
      Names selector layers tensor

open scoped Classical in
/-- The tensors the policy takes, in the order of the file. -/
noncomputable def takenOf (inventory : TensorInventory) (policy : TrainablePolicy)
    (selector : TrainableSelector) : List TensorDesc :=
  inventory.tensors.filter fun tensor => Taken inventory policy selector tensor

open scoped Classical in
theorem mem_takenOf : tensor ∈ takenOf inventory policy selector ↔
    tensor ∈ inventory.tensors ∧ Taken inventory policy selector tensor := by
  rw [takenOf, mem_filter, decide_eq_true_iff]

theorem takenOf_sublist (inventory : TensorInventory) (policy : TrainablePolicy)
    (selector : TrainableSelector) :
    (takenOf inventory policy selector).Sublist inventory.tensors :=
  filter_sublist

/-- How a set came about: from the tensors the policy takes, screened. -/
structure Resolution (inventory : TensorInventory) (policy : TrainablePolicy)
    (selector : TrainableSelector) (excluded : List TrainableExclusion) (set : TrainableSet) :
    Prop where
  eq : set = pushDeduplicated (takenOf inventory policy selector) ⟨policy, [], excluded⟩
  fit : ∀ tensor ∈ inventory.tensors, Taken inventory policy selector tensor → Fit inventory tensor
  dtype : ∀ tensor ∈ inventory.tensors, Taken inventory policy selector tensor →
    tensor.dtype.isTrainableBase = true

theorem resolveBase_iff (hpolicy : policy ≠ .lora) :
    resolveBase inventory policy selector = .ok set ↔ inventory.checkVersion = .ok () ∧
      resolvePolicy inventory policy selector ⟨policy, [], []⟩ = .ok set ∧ set.entries ≠ [] := by
  have hbase : (policy != .lora) = true := bne_iff_ne.mpr hpolicy
  unfold resolveBase
  constructor
  · intro h
    obtain ⟨⟨⟩, hversion, h⟩ := ok_of_bind h
    obtain ⟨set', hset, h⟩ := ok_of_bind h
    obtain ⟨⟨⟩, hne, h⟩ := ok_of_bind h
    rw [refuseIf_iff, hbase, Bool.true_and, isEmpty_eq_false_iff] at hne
    exact Except.ok.inj h ▸ ⟨hversion, hset, hne⟩
  · rintro ⟨hversion, hset, hne⟩
    refine bind_eq_ok.mpr ⟨(), hversion, bind_eq_ok.mpr ⟨set, hset,
      bind_eq_ok.mpr ⟨(), refuseIf_iff.mpr ?_, rfl⟩⟩⟩
    rwa [hbase, Bool.true_and, isEmpty_eq_false_iff]

theorem taken_full {row : ArchitectureCapability}
    (hrow : architectureCapability inventory.architecture = some row) (tensor : TensorDesc) :
    Taken inventory .full selector tensor ↔ takes inventory row tensor = true := by
  rw [Taken, takes, Bool.and_eq_true, Option.isNone_iff_eq_none, hrow]
  simp

open scoped Classical in
/-- **A full resolution** takes what it can, and leaves the rest out with a reason. -/
theorem resolveFull_resolution (selector : TrainableSelector) {set' : TrainableSet} :
    resolveFull inventory ⟨.full, [], []⟩ = .ok set' ↔
      ∃ row, architectureCapability inventory.architecture = some row ∧
        Resolution inventory .full selector (inventory.tensors.filterMap (leftOut inventory row))
          set' := by
  rw [resolveFull_iff]
  refine exists_congr fun row => and_congr_right fun hrow => ?_
  have hfilter : inventory.tensors.filter (takes inventory row) =
      takenOf inventory .full selector := by
    refine filter_congr fun tensor _ => ?_
    rw [Bool.eq_iff_iff, decide_eq_true_iff, taken_full hrow]
  rw [nil_append, hfilter]
  constructor
  · rintro ⟨hdtype, rfl⟩
    refine ⟨rfl, fun tensor _ htaken => ⟨htaken.1, fun row' hrow' => ?_⟩,
      fun tensor htensor htaken => hdtype tensor htensor ((taken_full hrow tensor).mp htaken)⟩
    obtain ⟨-, row'', hrow'', hadmits⟩ := htaken
    exact Option.some.inj (hrow''.symm.trans hrow') ▸ hadmits
  · rintro ⟨rfl, -, hdtype⟩
    exact ⟨fun tensor htensor htakes =>
      hdtype tensor htensor ((taken_full hrow tensor).mpr htakes), rfl⟩

/-- The policies that read a selector. -/
def TrainablePolicy.Selected (policy : TrainablePolicy) : Prop := policy = .part ∨ policy = .hybrid

theorem TrainablePolicy.cases_selected (policy : TrainablePolicy) (h : policy ≠ .lora) :
    policy = .full ∨ policy.Selected := by
  cases policy
  · exact absurd rfl h
  · exact .inl rfl
  · exact .inr (.inl rfl)
  · exact .inr (.inr rfl)

theorem TrainablePolicy.Selected.resolvePolicy (h : policy.Selected) {set : TrainableSet} :
    resolvePolicy inventory policy selector set = resolveSelected inventory selector set := by
  rcases h with rfl | rfl <;> rfl

theorem taken_selected (hpolicy : policy.Selected) {layers : List ℕ}
    (hlayers : selector.layers.resolve inventory.nLayer = .ok layers) (tensor : TensorDesc) :
    Taken inventory policy selector tensor ↔ Names selector layers tensor := by
  have hunfold : Taken inventory policy selector tensor ↔ ∃ layers,
      selector.layers.resolve inventory.nLayer = .ok layers ∧ Names selector layers tensor := by
    rcases hpolicy with rfl | rfl <;> exact Iff.rfl
  rw [hunfold, hlayers]
  simp

open scoped Classical in
/-- **A selected resolution** takes what the selector names. -/
theorem resolveSelected_resolution (hpolicy : policy.Selected) {set' : TrainableSet} :
    resolveSelected inventory selector ⟨policy, [], []⟩ = .ok set' ↔
      ∃ layers, Selects inventory selector layers ∧
        Resolution inventory policy selector [] set' := by
  rw [resolveSelected_iff]
  refine exists_congr fun layers => and_congr_right fun hselects => ?_
  have htaken := @taken_selected inventory policy selector hpolicy layers hselects.resolve
  have hfilter : (inventory.tensors.filter fun tensor => Names selector layers tensor) =
      takenOf inventory policy selector := by
    refine filter_congr fun tensor _ => ?_
    rw [Bool.eq_iff_iff, decide_eq_true_iff, decide_eq_true_iff, htaken]
  rw [hfilter]
  constructor
  · rintro rfl
    exact ⟨rfl, fun tensor htensor h => hselects.fit tensor htensor ((htaken tensor).mp h),
      fun tensor htensor h => hselects.dtype tensor htensor ((htaken tensor).mp h)⟩
  · exact fun h => h.eq

/-- Every policy that trains base tensors resolves so. -/
theorem exists_resolution (hpolicy : policy ≠ .lora)
    (h : resolvePolicy inventory policy selector ⟨policy, [], []⟩ = .ok set) :
    ∃ excluded, Resolution inventory policy selector excluded set := by
  rcases policy.cases_selected hpolicy with rfl | hselected
  · obtain ⟨_, -, hresolution⟩ := (resolveFull_resolution selector).mp h
    exact ⟨_, hresolution⟩
  · rw [hselected.resolvePolicy] at h
    obtain ⟨_, -, hresolution⟩ := (resolveSelected_resolution hselected).mp h
    exact ⟨_, hresolution⟩

/-! ### Parts -/

/-- The parts of a resolution: the tensors that stay, and the ones dropped for one that stays. -/
theorem Resolution.parts {excluded : List TrainableExclusion}
    (h : Resolution inventory policy selector excluded set) : ∃ kept dropped,
      Parted (canonical (takenOf inventory policy selector)) kept dropped ∧
        set = ⟨policy, kept.map entryOf, excluded ++ dropped.map droppedAs⟩ := by
  obtain ⟨kept, dropped, hparted, hset⟩ := pushDeduplicated_spec (takenOf inventory policy selector)
  exact ⟨kept, dropped, hparted, h.eq.trans (hset _)⟩

section Parts

variable {kept : List TensorDesc} {dropped : List (TensorDesc × TensorDesc)}

variable {tensor : TensorDesc}

/-- What was taken stays or is dropped, and nothing else. -/
theorem Parted.mem_iff {taken : List TensorDesc} (h : Parted (canonical taken) kept dropped) :
    tensor ∈ taken ↔ tensor ∈ kept ∨ tensor ∈ dropped.map Prod.fst := by
  rw [← (canonical_perm taken).mem_iff, ← h.perm.mem_iff, mem_append]

theorem Parted.taken_of_kept
    (h : Parted (canonical (takenOf inventory policy selector)) kept dropped)
    (hkept : tensor ∈ kept) : tensor ∈ inventory.tensors ∧ Taken inventory policy selector tensor :=
  mem_takenOf.mp (h.mem_iff.mpr (.inl hkept))

theorem mem_entries : (∃ e ∈ kept.map entryOf, e.toTensorDesc = tensor) ↔ tensor ∈ kept := by
  constructor
  · rintro ⟨e, he, rfl⟩
    obtain ⟨k, hk, rfl⟩ := mem_map.mp he
    exact hk
  · exact fun h => ⟨entryOf tensor, mem_map_of_mem h, rfl⟩

theorem names_dropped : (dropped.map droppedAs).map TrainableExclusion.name =
    (dropped.map Prod.fst).map TensorDesc.name := by
  rw [map_map, map_map]
  rfl

end Parts

end Retrograd.Trainable
