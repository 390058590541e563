import Retrograd.Trainable.Reordered

/-!
# The resolved set is well formed

What a resolution that ends well answers: entries in canonical order, one for an allocation, none of
them frozen by the model-wide tables, and the same whatever the order of the file. **The rotary table
of a block** freezes itself and not the tensors that share its allocation.
-/

namespace Retrograd.Trainable

open Logic List

variable {inventory : TensorInventory} {policy : TrainablePolicy} {selector : TrainableSelector}
  {set : TrainableSet} {kept : List TensorDesc} {dropped : List (TensorDesc × TensorDesc)}

/-! ### Well-formed sets -/

/-- What holds of every resolved set. -/
structure WellFormed (inventory : TensorInventory) (policy : TrainablePolicy)
    (selector : TrainableSelector) (set : TrainableSet) : Prop where
  base : ∀ e ∈ set.entries, e.role = .base ∧ e.toTensorDesc ∈ inventory.tensors
  ordered : set.entries.Pairwise fun a b => a.canonicalKey < b.canonicalKey
  storage : set.entries.Pairwise fun a b => a.storageId ≠ 0 → a.storageId ≠ b.storageId
  dtype : ∀ e ∈ set.entries, e.dtype.isTrainableBase = true
  family : ∀ e ∈ set.entries, ∀ row, architectureCapability inventory.architecture = some row →
    row.admits e.name = true
  frozen : ∀ e ∈ set.entries, ∀ tensor ∈ inventory.tensors,
    tensor.name = inputEmbedding ∨ tensor.name = rotaryTable →
    e.storageId ≠ 0 → e.storageId ≠ tensor.storageId
  full : policy = .full → (∀ tensor ∈ inventory.tensors,
      Xor (∃ e ∈ set.entries, e.toTensorDesc = tensor)
        (∃ x ∈ set.exclusions, x.name = tensor.name)) ∧
    (∀ x ∈ set.exclusions, ∃ tensor ∈ inventory.tensors, tensor.name = x.name) ∧
    (set.exclusions.map TrainableExclusion.name).Nodup
  selected : policy.Selected → ∀ tensor ∈ inventory.tensors,
    ((∃ e ∈ set.entries, e.toTensorDesc = tensor) ∨
      ∃ e ∈ set.entries, e.storageId = tensor.storageId ∧ tensor.storageId ≠ 0 ∧
        ⟨tensor.name, .duplicateStorage e.name⟩ ∈ set.exclusions) ↔
    ∃ layers, selector.layers.resolve inventory.nLayer = .ok layers ∧ Names selector layers tensor
  modules : policy.Selected → ∀ module ∈ selector.modules, ∃ layers,
    selector.layers.resolve inventory.nLayer = .ok layers ∧
      ∃ tensor ∈ inventory.tensors, ModuleNames layers module tensor
  reordered : ∀ tensors, tensors.Perm inventory.tensors → ∃ set',
    resolveBase (inventory.reordered tensors) policy selector = .ok set' ∧ SameSet set set'

/-- No entry shares an allocation with a rotary table. -/
def ApartFromRotary (inventory : TensorInventory) (set : TrainableSet) : Prop :=
  ∀ e ∈ set.entries, ∀ tensor ∈ inventory.tensors, tensor.isRotaryConstant = true →
    e.storageId ≠ 0 → e.storageId ≠ tensor.storageId

/-! ### Entries -/

section Entries

variable (hnames : Distinct inventory.tensors)
  (hparted : Parted (canonical (takenOf inventory policy selector)) kept dropped)

include hnames hparted in
theorem kept_ordered :
    (kept.map entryOf).Pairwise fun a b => a.canonicalKey < b.canonicalKey := by
  have hordered := (hnames.sublist (takenOf_sublist inventory policy selector)).canonical_lt
  exact pairwise_map.mpr (hordered.sublist hparted.sublist)

include hnames hparted in
theorem kept_frozen
    (hfit : ∀ tensor ∈ inventory.tensors, Taken inventory policy selector tensor →
      Fit inventory tensor) {k : TensorDesc} (hk : k ∈ kept) {tensor : TensorDesc}
    (htensor : tensor ∈ inventory.tensors)
    (hname : tensor.name = inputEmbedding ∨ tensor.name = rotaryTable) (hid : k.storageId ≠ 0) :
    k.storageId ≠ tensor.storageId := by
  obtain ⟨hmem, htaken⟩ := hparted.taken_of_kept hk
  obtain ⟨hembedding, hrotary, -⟩ := not_frozen (hfit k hmem htaken).1
  rcases hname with hname | hname
  · exact hnames.storage_ne (hname ▸ hembedding) htensor hid
  · exact hnames.storage_ne (hname ▸ hrotary) htensor hid

end Entries

/-! ### Full sets -/

theorem names_leftOut (inventory : TensorInventory) (row : ArchitectureCapability)
    (tensors : List TensorDesc) :
    (tensors.filterMap (leftOut inventory row)).map TrainableExclusion.name =
      (tensors.filter fun tensor => !takes inventory row tensor).map TensorDesc.name := by
  induction tensors with
  | nil => rfl
  | cons tensor tensors ih =>
    rw [filterMap_cons, filter_cons]
    cases hleft : leftOut inventory row tensor with
    | none => simp [leftOut_eq_none.mp hleft, ih]
    | some exclusion =>
      have htakes : takes inventory row tensor = false := by
        rw [← Bool.not_eq_true, ← leftOut_eq_none, hleft]
        simp
      simp [htakes, ih, leftOut_name hleft]

/-- **A full run puts every tensor in one place**: it stays, is left out, or is dropped. -/
theorem full_parts {row : ArchitectureCapability}
    (hrow : architectureCapability inventory.architecture = some row)
    (hparted : Parted (canonical (takenOf inventory .full selector)) kept dropped) :
    (kept ++ ((inventory.tensors.filter fun tensor => !takes inventory row tensor) ++
      dropped.map Prod.fst)).Perm inventory.tensors := by
  have htaken : takenOf inventory .full selector =
      inventory.tensors.filter (takes inventory row) := by
    classical
    refine filter_congr fun tensor _ => ?_
    rw [Bool.eq_iff_iff, decide_eq_true_iff, taken_full hrow]
  have hall := filter_append_perm (takes inventory row) inventory.tensors
  have hperm := hparted.perm.trans (canonical_perm _)
  rw [htaken] at hperm
  refine .trans ?_ ((hperm.append_right _).trans hall)
  rw [append_assoc]
  exact perm_append_comm.append_left _

theorem full_partition (hnames : Distinct inventory.tensors) {row : ArchitectureCapability}
    (hrow : architectureCapability inventory.architecture = some row)
    (hparted : Parted (canonical (takenOf inventory .full selector)) kept dropped)
    (hset : set = ⟨.full, kept.map entryOf,
      inventory.tensors.filterMap (leftOut inventory row) ++ dropped.map droppedAs⟩) :
    (∀ tensor ∈ inventory.tensors, Xor (∃ e ∈ set.entries, e.toTensorDesc = tensor)
      (∃ x ∈ set.exclusions, x.name = tensor.name)) ∧
    (∀ x ∈ set.exclusions, ∃ tensor ∈ inventory.tensors, tensor.name = x.name) ∧
    (set.exclusions.map TrainableExclusion.name).Nodup := by
  have hall := full_parts hrow hparted
  have hdistinct := hnames.perm hall
  set out := (inventory.tensors.filter fun tensor => !takes inventory row tensor) ++
    dropped.map Prod.fst with hout
  have hexclusions : set.exclusions.map TrainableExclusion.name = out.map TensorDesc.name := by
    rw [hset, hout, map_append, map_append, names_leftOut, names_dropped]
  have hmem {name : String} :
      (∃ x ∈ set.exclusions, x.name = name) ↔ ∃ tensor ∈ out, tensor.name = name := by
    rw [← mem_map, hexclusions, mem_map]
  have hinside {tensor : TensorDesc} (h : tensor ∈ out) : tensor ∈ inventory.tensors :=
    hall.subset (mem_append_right _ h)
  refine ⟨fun tensor htensor => ?_, fun x hx => ?_, ?_⟩
  · rw [hset, mem_entries, ← hset, hmem]
    have hout : (∃ other ∈ out, other.name = tensor.name) ↔ tensor ∈ out := by
      refine ⟨fun ⟨other, hother, hname⟩ => ?_, fun h => ⟨tensor, h, rfl⟩⟩
      exact hnames.eq_of_name (hinside hother) htensor hname ▸ hother
    rw [hout]
    have hapart := (nodup_append.mp hdistinct.nodup).2.2
    rcases mem_append.mp (hall.symm.subset htensor) with hkept | hleft
    · exact .inl ⟨hkept, fun hleft => hapart tensor hkept tensor hleft rfl⟩
    · exact .inr ⟨hleft, fun hkept => hapart tensor hkept tensor hleft rfl⟩
  · obtain ⟨tensor, htensor, hname⟩ := hmem.mp ⟨x, hx, rfl⟩
    exact ⟨tensor, hinside htensor, hname⟩
  · rw [hexclusions]
    exact (hdistinct.sublist (sublist_append_right _ _) :)

/-! ### Selected sets -/

theorem selected_iff (hnames : Distinct inventory.tensors) (hpolicy : policy.Selected)
    (hparted : Parted (canonical (takenOf inventory policy selector)) kept dropped)
    {tensor : TensorDesc} (htensor : tensor ∈ inventory.tensors) :
    ((∃ e ∈ kept.map entryOf, e.toTensorDesc = tensor) ∨
      ∃ e ∈ kept.map entryOf, e.storageId = tensor.storageId ∧ tensor.storageId ≠ 0 ∧
        ⟨tensor.name, .duplicateStorage e.name⟩ ∈ dropped.map droppedAs) ↔
    ∃ layers, selector.layers.resolve inventory.nLayer = .ok layers ∧
      Names selector layers tensor := by
  have htaken : (∃ layers, selector.layers.resolve inventory.nLayer = .ok layers ∧
      Names selector layers tensor) ↔ tensor ∈ kept ∨ tensor ∈ dropped.map Prod.fst := by
    rw [← hparted.mem_iff, mem_takenOf, and_iff_right htensor]
    rcases hpolicy with rfl | rfl <;> exact Iff.rfl
  rw [htaken, mem_entries]
  refine or_congr_right ?_
  constructor
  · rintro ⟨e, -, -, -, hexcluded⟩
    obtain ⟨pair, hpair, heq⟩ := mem_map.mp hexcluded
    have hmem : pair.1 ∈ dropped.map Prod.fst := mem_map_of_mem hpair
    have hinside := (mem_takenOf.mp (hparted.mem_iff.mpr (.inr hmem))).1
    have hname : pair.1.name = tensor.name := congrArg TrainableExclusion.name heq
    exact hnames.eq_of_name hinside htensor hname ▸ hmem
  · intro h
    obtain ⟨⟨dropped', owner⟩, hpair, rfl⟩ := mem_map.mp h
    obtain ⟨hkept, hsame, hid⟩ := hparted.owner _ hpair
    exact ⟨entryOf owner, mem_map_of_mem hkept, hsame, hid,
      mem_map.mpr ⟨_, hpair, rfl⟩⟩

/-! ### Every resolved set -/

/-- **A resolution that ends well gives a well-formed set.** -/
theorem resolveBase_wellFormed (hnames : Distinct inventory.tensors) (hpolicy : policy ≠ .lora)
    (h : resolveBase inventory policy selector = .ok set) :
    WellFormed inventory policy selector set := by
  obtain ⟨-, hset, -⟩ := (resolveBase_iff hpolicy).mp h
  obtain ⟨excluded, hresolution⟩ := exists_resolution hpolicy hset
  obtain ⟨kept, dropped, hparted, heq⟩ := hresolution.parts
  have hentries : set.entries = kept.map entryOf := by rw [heq]
  have hkept {e : TrainableEntry} (he : e ∈ set.entries) : ∃ k ∈ kept, e = entryOf k := by
    rw [hentries] at he
    obtain ⟨k, hk, rfl⟩ := mem_map.mp he
    exact ⟨k, hk, rfl⟩
  constructor
  case base =>
    intro e he
    obtain ⟨k, hk, rfl⟩ := hkept he
    exact ⟨rfl, (hparted.taken_of_kept hk).1⟩
  case ordered => exact hentries ▸ kept_ordered hnames hparted
  case storage => exact hentries ▸ pairwise_map.mpr hparted.storage
  case dtype =>
    intro e he
    obtain ⟨k, hk, rfl⟩ := hkept he
    obtain ⟨hmem, htaken⟩ := hparted.taken_of_kept hk
    exact hresolution.dtype k hmem htaken
  case family =>
    intro e he
    obtain ⟨k, hk, rfl⟩ := hkept he
    obtain ⟨hmem, htaken⟩ := hparted.taken_of_kept hk
    exact (hresolution.fit k hmem htaken).2
  case frozen =>
    intro e he tensor htensor hname
    obtain ⟨k, hk, rfl⟩ := hkept he
    exact kept_frozen hnames hparted hresolution.fit hk htensor hname
  case full =>
    rintro rfl
    obtain ⟨row, hrow, hfull⟩ := (resolveFull_resolution selector).mp hset
    obtain ⟨kept, dropped, hparted, heq⟩ := hfull.parts
    exact full_partition hnames hrow hparted heq
  case selected =>
    intro hselected tensor htensor
    rw [hselected.resolvePolicy] at hset
    obtain ⟨layers, -, hresolution⟩ := (resolveSelected_resolution hselected).mp hset
    obtain ⟨kept, dropped, hparted, rfl⟩ := hresolution.parts
    exact selected_iff hnames hselected hparted htensor
  case modules =>
    intro hselected module hmodule
    rw [hselected.resolvePolicy] at hset
    obtain ⟨layers, hselects, -⟩ := (resolveSelected_resolution hselected).mp hset
    exact ⟨layers, hselects.resolve, hselects.named module hmodule⟩
  case reordered => exact fun tensors hperm => resolveBase_reordered hnames hpolicy h hperm

/-- **No entry shares an allocation with a rotary table** exactly if nothing the policy takes shares
one with the table of a block. -/
theorem apartFromRotary_iff (hnames : Distinct inventory.tensors) (hpolicy : policy ≠ .lora)
    (h : resolveBase inventory policy selector = .ok set) :
    ApartFromRotary inventory set ↔ ∀ tensor ∈ inventory.tensors,
      Taken inventory policy selector tensor → ∀ table ∈ inventory.tensors,
        table.isBlockRotary = true → tensor.storageId ≠ 0 → tensor.storageId ≠ table.storageId := by
  obtain ⟨-, hset, -⟩ := (resolveBase_iff hpolicy).mp h
  obtain ⟨excluded, hresolution⟩ := exists_resolution hpolicy hset
  obtain ⟨kept, dropped, hparted, rfl⟩ := hresolution.parts
  constructor
  · intro hapart tensor htensor htaken table htable hrotary hid
    have hconstant : table.isRotaryConstant = true := by
      rw [TensorDesc.isRotaryConstant, hrotary, Bool.or_true]
    rcases hparted.mem_iff.mp (mem_takenOf.mpr ⟨htensor, htaken⟩) with hkept | hdropped
    · exact hapart _ (mem_map_of_mem hkept) table htable hconstant hid
    · -- the tensor that stayed has the same allocation
      obtain ⟨⟨tensor, owner⟩, hpair, rfl⟩ := mem_map.mp hdropped
      obtain ⟨hkept, hsame, hid⟩ := hparted.owner _ hpair
      have howner := hapart _ (mem_map_of_mem hkept) table htable hconstant
      exact hsame ▸ howner (show owner.storageId ≠ 0 from hsame ▸ hid)
  · intro hcondition e he table htable hconstant hid
    obtain ⟨k, hk, rfl⟩ := mem_map.mp he
    obtain ⟨hmem, htaken⟩ := hparted.taken_of_kept hk
    rw [TensorDesc.isRotaryConstant, Bool.or_eq_true, beq_iff_eq] at hconstant
    rcases hconstant with hname | hblock
    · exact kept_frozen hnames hparted hresolution.fit hk htable (.inr hname) hid
    · exact hcondition k hmem htaken table htable hblock hid

/-- **The resolved set is well formed** and shares no allocation with a rotary table exactly if no
tensor the policy takes shares one with the rotary table of a block. -/
theorem resolved_iff (hnames : Distinct inventory.tensors) (hpolicy : policy ≠ .lora)
    (h : resolveBase inventory policy selector = .ok set) :
    (WellFormed inventory policy selector set ∧ ApartFromRotary inventory set) ↔
      ∀ tensor ∈ inventory.tensors, Taken inventory policy selector tensor →
        ∀ table ∈ inventory.tensors, table.isBlockRotary = true → tensor.storageId ≠ 0 →
          tensor.storageId ≠ table.storageId :=
  (and_iff_right (resolveBase_wellFormed hnames hpolicy h)).trans
    (apartFromRotary_iff hnames hpolicy h)

/-! ### A shared table -/

/-- Two names of one allocation: the keys of a block and its rotary table. -/
def sharedTable : TensorInventory :=
  .new "llama" false [⟨"blk.0.attn_k.weight", [64, 64], .f32, 4096, 16384, 9⟩,
    ⟨"blk.0.rope_freqs.weight", [32], .f32, 32, 128, 9⟩]

/-- The selection a full run ignores. -/
def noSelection : TrainableSelector := ⟨.all, [], false, false, false⟩

/-- The set a full run resolves. -/
def sharedSet : TrainableSet where
  policy := .full
  entries := [⟨⟨"blk.0.attn_k.weight", [64, 64], .f32, 4096, 16384, 9⟩, .base⟩]
  exclusions := [⟨"blk.0.rope_freqs.weight", .rotaryConstant⟩]

theorem resolveBase_sharedTable : resolveBase sharedTable .full noSelection = .ok sharedSet := by
  have hrow : architectureCapability sharedTable.architecture =
      some ⟨"llama", denseBlock, denseGlobal⟩ := by decide
  have htakes : sharedTable.tensors.filter (takes sharedTable ⟨"llama", denseBlock, denseGlobal⟩) =
      [⟨"blk.0.attn_k.weight", [64, 64], .f32, 4096, 16384, 9⟩] := by decide
  have hfull : resolveFull sharedTable ⟨.full, [], []⟩ = .ok sharedSet := by
    refine resolveFull_iff.mpr ⟨_, hrow, by decide, ?_⟩
    rw [htakes, pushDeduplicated, canonical, mergeSort_singleton]
    rfl
  exact (resolveBase_iff (by decide)).mpr ⟨rfl, hfull, by decide⟩

theorem resolved_iff_sharedTable :
    (WellFormed sharedTable .full noSelection sharedSet ∧ ApartFromRotary sharedTable sharedSet) ↔
      ∀ tensor ∈ sharedTable.tensors, Taken sharedTable .full noSelection tensor →
        ∀ table ∈ sharedTable.tensors, table.isBlockRotary = true → tensor.storageId ≠ 0 →
          tensor.storageId ≠ table.storageId :=
  resolved_iff (by unfold Distinct; decide) (by decide) resolveBase_sharedTable

/-- **A block's rotary table is trained** through the other name of its allocation. -/
theorem resolved_sharedTable_trained :
    Distinct sharedTable.tensors ∧
      resolveBase sharedTable .full noSelection = .ok sharedSet ∧
      ¬ ApartFromRotary sharedTable sharedSet := by
  refine ⟨by unfold Distinct; decide, resolveBase_sharedTable, fun h => ?_⟩
  have hentry : (⟨⟨"blk.0.attn_k.weight", [64, 64], .f32, 4096, 16384, 9⟩, .base⟩ :
      TrainableEntry) ∈ sharedSet.entries := List.mem_singleton_self _
  have htable : (⟨"blk.0.rope_freqs.weight", [32], .f32, 32, 128, 9⟩ : TensorDesc) ∈
      sharedTable.tensors := by decide
  exact h _ hentry _ htable (by decide) (by decide) rfl

end Retrograd.Trainable
