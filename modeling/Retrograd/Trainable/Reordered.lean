import Retrograd.Trainable.Resolved

/-!
# The order of the file

Tensors with distinct names are found by name wherever they stand, so a resolution freezes, screens
and takes **the same tensors in every order** of the file, and the canonical order makes their
entries the same list.
-/

namespace Retrograd.Trainable

open Logic

variable {inventory : TensorInventory} {policy : TrainablePolicy} {selector : TrainableSelector}
  {set : TrainableSet} {tensors tensors' : List TensorDesc}

theorem Distinct.get_eq_some_iff (h : Distinct inventory.tensors) {name : String}
    {tensor : TensorDesc} :
    inventory.get name = some tensor ↔ tensor ∈ inventory.tensors ∧ tensor.name = name := by
  constructor
  · intro hget
    exact ⟨List.mem_of_find?_eq_some hget, beq_iff_eq.mp (List.find?_some hget :)⟩
  · rintro ⟨hmem, rfl⟩
    exact h.get_eq hmem

/-- The inventory of the same tensors in another order. -/
def TensorInventory.reordered (inventory : TensorInventory) (tensors : List TensorDesc) :
    TensorInventory :=
  { inventory with tensors }

theorem get_reordered (hnames : Distinct inventory.tensors)
    (hperm : tensors.Perm inventory.tensors) (name : String) :
    (inventory.reordered tensors).get name = inventory.get name := by
  have hnames' : Distinct (inventory.reordered tensors).tensors := hnames.perm hperm
  refine Option.ext fun tensor => ?_
  rw [hnames'.get_eq_some_iff, hnames.get_eq_some_iff]
  exact and_congr_left fun _ => hperm.mem_iff

theorem frozenReason_reordered (hnames : Distinct inventory.tensors)
    (hperm : tensors.Perm inventory.tensors) :
    frozenReason (inventory.reordered tensors) = frozenReason inventory := by
  funext tensor
  have halias (name : String) : aliases (inventory.reordered tensors) tensor name =
      aliases inventory tensor name := by
    rw [aliases, aliases, get_reordered hnames hperm]
  rw [frozenReason, frozenReason, halias, halias]
  rfl

theorem taken_reordered (hnames : Distinct inventory.tensors)
    (hperm : tensors.Perm inventory.tensors) :
    Taken (inventory.reordered tensors) policy selector = Taken inventory policy selector := by
  funext tensor
  cases policy
  · rfl
  · rw [Taken, Taken, frozenReason_reordered hnames hperm]
    rfl
  · rfl
  · rfl

theorem takenOf_reordered (hnames : Distinct inventory.tensors)
    (hperm : tensors.Perm inventory.tensors) :
    (takenOf (inventory.reordered tensors) policy selector).Perm
      (takenOf inventory policy selector) := by
  unfold takenOf
  rw [taken_reordered hnames hperm]
  exact hperm.filter _

theorem leftOut_reordered (hnames : Distinct inventory.tensors)
    (hperm : tensors.Perm inventory.tensors) (row : ArchitectureCapability) :
    leftOut (inventory.reordered tensors) row = leftOut inventory row := by
  funext tensor
  rw [leftOut, leftOut, frozenReason_reordered hnames hperm]
  rfl

/-- The sets a file's order may give: one's exclusions are the other's, in some order. -/
structure SameSet (set set' : TrainableSet) : Prop where
  policy : set'.policy = set.policy
  entries : set'.entries = set.entries
  exclusions : set'.exclusions.Perm set.exclusions

/-- **A resolution of the file in another order** finds the same entries. -/
theorem Resolution.reordered {excluded excluded' : List TrainableExclusion}
    (h : Resolution inventory policy selector excluded set) (hnames : Distinct inventory.tensors)
    (hperm : tensors.Perm inventory.tensors) (hexcluded : excluded'.Perm excluded) :
    ∃ set', Resolution (inventory.reordered tensors) policy selector excluded' set' ∧
      SameSet set set' := by
  have hcanonical : canonical (takenOf (inventory.reordered tensors) policy selector) =
      canonical (takenOf inventory policy selector) :=
    (hnames.sublist (takenOf_sublist ..)).canonical_eq (takenOf_reordered hnames hperm)
  obtain ⟨kept, dropped, -, hset⟩ := pushDeduplicated_spec (takenOf inventory policy selector)
  have hpush (set : TrainableSet) : pushDeduplicated
      (takenOf (inventory.reordered tensors) policy selector) set =
      pushDeduplicated (takenOf inventory policy selector) set := by
    rw [pushDeduplicated, pushDeduplicated, hcanonical]
  refine ⟨_, ⟨rfl, fun tensor htensor htaken => ?_, fun tensor htensor htaken => ?_⟩, ?_⟩
  · rw [taken_reordered hnames hperm] at htaken
    obtain ⟨hfrozen, hadmits⟩ := h.fit tensor (hperm.subset htensor) htaken
    exact ⟨frozenReason_reordered hnames hperm ▸ hfrozen, hadmits⟩
  · rw [taken_reordered hnames hperm] at htaken
    exact h.dtype tensor (hperm.subset htensor) htaken
  · rw [hpush, h.eq, hset, hset]
    exact ⟨rfl, rfl, hexcluded.append_right _⟩

theorem headIsSelectable_reordered (hnames : Distinct inventory.tensors)
    (hperm : tensors.Perm inventory.tensors) :
    headIsSelectable (inventory.reordered tensors) = headIsSelectable inventory := by
  unfold headIsSelectable
  rw [get_reordered hnames hperm]
  rfl

theorem Selects.reordered {layers : List ℕ} (h : Selects inventory selector layers)
    (hnames : Distinct inventory.tensors) (hperm : tensors.Perm inventory.tensors) :
    Selects (inventory.reordered tensors) selector layers where
  nonempty := h.nonempty
  resolve := h.resolve
  head hout := by
    rw [headIsSelectable_reordered hnames hperm]
    exact h.head hout
  modules := h.modules
  named module hmodule := by
    simpa only [TensorInventory.reordered, hperm.mem_iff] using h.named module hmodule
  fit tensor htensor hnamed := by
    obtain ⟨hfrozen, hadmits⟩ := h.fit tensor (hperm.subset htensor) hnamed
    exact ⟨frozenReason_reordered hnames hperm ▸ hfrozen, hadmits⟩
  dtype tensor htensor hnamed := h.dtype tensor (hperm.subset htensor) hnamed

/-- **Any order of the file resolves**, and to the same entries. -/
theorem resolveBase_reordered (hnames : Distinct inventory.tensors) (hpolicy : policy ≠ .lora)
    (h : resolveBase inventory policy selector = .ok set)
    (hperm : tensors.Perm inventory.tensors) : ∃ set',
      resolveBase (inventory.reordered tensors) policy selector = .ok set' ∧ SameSet set set' := by
  obtain ⟨hversion, hset, hne⟩ := (resolveBase_iff hpolicy).mp h
  have hresolves : ∃ set', resolvePolicy (inventory.reordered tensors) policy selector
      ⟨policy, [], []⟩ = .ok set' ∧ SameSet set set' := by
    rcases policy.cases_selected hpolicy with rfl | hselected
    · obtain ⟨row, hrow, hresolution⟩ := (resolveFull_resolution selector).mp hset
      have hexcluded : ((inventory.reordered tensors).tensors.filterMap
          (leftOut (inventory.reordered tensors) row)).Perm
          (inventory.tensors.filterMap (leftOut inventory row)) := by
        rw [leftOut_reordered hnames hperm]
        exact hperm.filterMap _
      obtain ⟨set', hresolution', hsame⟩ := hresolution.reordered hnames hperm hexcluded
      exact ⟨set', (resolveFull_resolution selector).mpr ⟨row, hrow, hresolution'⟩, hsame⟩
    · rw [hselected.resolvePolicy] at hset ⊢
      obtain ⟨layers, hselects, hresolution⟩ := (resolveSelected_resolution hselected).mp hset
      obtain ⟨set', hresolution', hsame⟩ := hresolution.reordered hnames hperm (.refl _)
      exact ⟨set', (resolveSelected_resolution hselected).mpr
        ⟨layers, hselects.reordered hnames hperm, hresolution'⟩, hsame⟩
  obtain ⟨set', hset', hsame⟩ := hresolves
  exact ⟨set', (resolveBase_iff hpolicy).mpr ⟨hversion, hset', hsame.entries ▸ hne⟩, hsame⟩

/-- The number of blocks is read off the names, whatever their order. -/
theorem TensorInventory.new_reordered (architecture : String) (tied : Bool)
    (hperm : tensors.Perm tensors') :
    TensorInventory.new architecture tied tensors =
      (TensorInventory.new architecture tied tensors').reordered tensors := by
  have hlast : (tensors.filterMap TensorDesc.layer).max? =
      (tensors'.filterMap TensorDesc.layer).max? := by
    refine Option.ext fun last => ?_
    have hmem {layer : ℕ} := (hperm.filterMap TensorDesc.layer).mem_iff (a := layer)
    simp only [List.max?_eq_some_iff, hmem]
  rw [TensorInventory.new, TensorInventory.new, TensorInventory.reordered, hlast]

end Retrograd.Trainable
