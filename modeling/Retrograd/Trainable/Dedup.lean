import Mathlib.Data.List.Perm.Basic
import Retrograd.Trainable.Resolve

/-!
# Deduplication

Candidates with distinct names have one canonical order, whatever order they come in. Of the
candidates that share an allocation the first in that order stays, and every other one is dropped
under the name of the one that stayed.
-/

namespace Retrograd.Trainable

open Logic List

/-! ### The canonical order -/

theorem name_of_canonicalKey {a b : TensorDesc} (h : a.canonicalKey = b.canonicalKey) :
    a.name = b.name := by
  unfold TensorDesc.canonicalKey at h
  split at h <;> split at h <;> simp_all

theorem canonical_perm (candidates : List TensorDesc) : (canonical candidates).Perm candidates :=
  mergeSort_perm _ _

theorem canonical_sorted (candidates : List TensorDesc) :
    (canonical candidates).Pairwise fun a b => a.canonicalKey ≤ b.canonicalKey := by
  refine (pairwise_mergeSort (fun a b c hab hbc => ?_) (fun a b => ?_) candidates).imp
    fun hab => of_decide_eq_true hab
  · exact decide_eq_true ((of_decide_eq_true hab).trans (of_decide_eq_true hbc))
  · simpa using le_total a.canonicalKey b.canonicalKey

/-- A tensor is known by its name. -/
def Distinct (tensors : List TensorDesc) : Prop := (tensors.map TensorDesc.name).Nodup

variable {tensors tensors' : List TensorDesc}

theorem Distinct.eq_of_name (h : Distinct tensors) {a b : TensorDesc} (ha : a ∈ tensors)
    (hb : b ∈ tensors) (hname : a.name = b.name) : a = b :=
  inj_on_of_nodup_map h ha hb hname

theorem Distinct.perm (h : Distinct tensors) (hperm : tensors'.Perm tensors) : Distinct tensors' :=
  (hperm.map TensorDesc.name).nodup_iff.mpr h

theorem Distinct.sublist (h : Distinct tensors) (hsub : tensors'.Sublist tensors) :
    Distinct tensors' :=
  (hsub.map TensorDesc.name).nodup h

theorem Distinct.nodup (h : Distinct tensors) : tensors.Nodup := Nodup.of_map _ h

/-- **The canonical order does not depend on the file's.** -/
theorem Distinct.canonical_eq (h : Distinct tensors) (hperm : tensors'.Perm tensors) :
    canonical tensors' = canonical tensors := by
  refine Perm.eq_of_pairwise (fun a b ha hb hab hba => ?_) (canonical_sorted tensors')
    (canonical_sorted tensors)
    (((canonical_perm tensors').trans hperm).trans (canonical_perm tensors).symm)
  exact h.eq_of_name (((canonical_perm tensors').trans hperm).subset ha)
    ((canonical_perm tensors).subset hb) (name_of_canonicalKey (le_antisymm hab hba))

theorem Distinct.canonical_lt (h : Distinct tensors) :
    (canonical tensors).Pairwise fun a b => a.canonicalKey < b.canonicalKey := by
  have hnames := h.perm (canonical_perm tensors)
  refine ((canonical_sorted tensors).and (pairwise_map.mp hnames)).imp fun ⟨hle, hne⟩ => ?_
  exact lt_of_le_of_ne hle fun heq => hne (name_of_canonicalKey heq)

/-! ### One allocation, one entry -/

def entryOf (tensor : TensorDesc) : TrainableEntry := ⟨tensor, .base⟩

/-- A dropped candidate and the one that stayed. -/
def droppedAs (pair : TensorDesc × TensorDesc) : TrainableExclusion :=
  ⟨pair.1.name, .duplicateStorage pair.2.name⟩

/-- How some candidates part into those that stay and those that are dropped. -/
structure Parted (done kept : List TensorDesc) (dropped : List (TensorDesc × TensorDesc)) :
    Prop where
  sublist : kept.Sublist done
  perm : (kept ++ dropped.map Prod.fst).Perm done
  storage : kept.Pairwise fun a b => a.storageId ≠ 0 → a.storageId ≠ b.storageId
  owner : ∀ pair ∈ dropped, pair.2 ∈ kept ∧ pair.2.storageId = pair.1.storageId ∧
    pair.1.storageId ≠ 0

/-- What the names seen so far are. -/
structure Seen (seen : Map UInt64 String) (kept : List TensorDesc) : Prop where
  owner : ∀ id name, id ≠ 0 → seen.get id = some name → ∃ k ∈ kept, k.storageId = id ∧ k.name = name
  known : ∀ k ∈ kept, k.storageId ≠ 0 → ∃ name, seen.get k.storageId = some name

theorem foldl_pushTensor (more : List TensorDesc) {done kept : List TensorDesc}
    {dropped : List (TensorDesc × TensorDesc)} {seen : Map UInt64 String}
    (hparted : Parted done kept dropped) (hseen : Seen seen kept) :
    ∃ kept' dropped', Parted (done ++ more) (kept ++ kept') (dropped ++ dropped') ∧
      ∀ set : TrainableSet, (more.foldl pushTensor (seen, set)).2 = { set with
        entries := set.entries ++ kept'.map entryOf
        exclusions := set.exclusions ++ dropped'.map droppedAs } := by
  induction more generalizing done kept dropped seen with
  | nil => exact ⟨[], [], by simpa using hparted, fun set => by simp⟩
  | cons tensor more ih =>
    simp only [foldl_cons]
    by_cases howner : ∃ name, tensor.storageId ≠ 0 ∧ seen.get tensor.storageId = some name
    · -- the allocation is in the set already
      obtain ⟨name, hid, hname⟩ := howner
      obtain ⟨k, hk, hsame, rfl⟩ := hseen.owner _ _ hid hname
      have hstep (set : TrainableSet) : pushTensor (seen, set) tensor =
          (seen, { set with exclusions := set.exclusions ++ [droppedAs (tensor, k)] }) := by
        simp [pushTensor, hid, hname, droppedAs]
      have hnext : Parted (done ++ [tensor]) kept (dropped ++ [(tensor, k)]) := by
        refine ⟨hparted.sublist.trans (sublist_append_left ..), ?_, hparted.storage, ?_⟩
        · rw [map_append, ← append_assoc]
          exact hparted.perm.append_right _
        · intro pair hpair
          rcases mem_append.mp hpair with hpair | hpair
          · exact hparted.owner pair hpair
          · rw [mem_singleton.mp hpair]
            exact ⟨hk, hsame, hid⟩
      obtain ⟨kept', dropped', hall, hset⟩ := ih hnext hseen
      refine ⟨kept', (tensor, k) :: dropped', ?_, fun set => ?_⟩
      · rwa [append_cons, append_cons dropped]
      · rw [hstep, hset, map_cons]
        simp
    · have hstep (set : TrainableSet) : pushTensor (seen, set) tensor =
          (seen.insert tensor.storageId tensor.name,
            { set with entries := set.entries ++ [entryOf tensor] }) := by
        have hnone : (if tensor.storageId != 0 then seen.get tensor.storageId else none) = none := by
          by_cases hid : tensor.storageId = 0
          · simp [hid]
          · rw [if_pos (by simpa using hid)]
            cases hget : seen.get tensor.storageId with
            | none => rfl
            | some name => exact absurd ⟨name, hid, hget⟩ howner
        unfold pushTensor
        dsimp only
        rw [hnone]
        rfl
      have hnext : Parted (done ++ [tensor]) (kept ++ [tensor]) dropped := by
        refine ⟨hparted.sublist.append (Sublist.refl _), ?_, ?_, fun pair hpair => ?_⟩
        · have hswap : ((kept ++ [tensor]) ++ dropped.map Prod.fst).Perm
              ((kept ++ dropped.map Prod.fst) ++ [tensor]) := by
            rw [append_assoc, append_assoc]
            exact perm_append_comm.append_left _
          exact hswap.trans (hparted.perm.append_right _)
        · refine pairwise_append.mpr ⟨hparted.storage, pairwise_singleton _ _, ?_⟩
          intro a ha b hb hid heq
          obtain rfl := mem_singleton.mp hb
          obtain ⟨name, hname⟩ := hseen.known a ha hid
          exact howner ⟨name, heq ▸ hid, heq ▸ hname⟩
        · obtain ⟨hkept, hrest⟩ := hparted.owner pair hpair
          exact ⟨mem_append_left _ hkept, hrest⟩
      have hseen' : Seen (seen.insert tensor.storageId tensor.name) (kept ++ [tensor]) := by
        have hlast : tensor ∈ kept ++ [tensor] := mem_append_right _ (mem_singleton_self _)
        constructor
        · intro id name hid hname
          rw [Map.get_insert] at hname
          split_ifs at hname with heq
          · exact ⟨tensor, hlast, heq.symm, Option.some.inj hname⟩
          · obtain ⟨k, hk, hrest⟩ := hseen.owner id name hid hname
            exact ⟨k, mem_append_left _ hk, hrest⟩
        · intro k hk hid
          rw [Map.get_insert]
          split_ifs with heq
          · exact ⟨_, rfl⟩
          · rcases mem_append.mp hk with hk | hk
            · exact hseen.known k hk hid
            · exact absurd (congrArg TensorDesc.storageId (mem_singleton.mp hk)) heq
      obtain ⟨kept', dropped', hall, hset⟩ := ih hnext hseen'
      refine ⟨tensor :: kept', dropped', ?_, fun set => ?_⟩
      · rwa [append_cons, append_cons kept]
      · rw [hstep, hset, map_cons]
        simp

/-- **What deduplication leaves**: entries in canonical order, one for an allocation, and every other
candidate dropped under an entry's name. -/
theorem pushDeduplicated_spec (candidates : List TensorDesc) :
    ∃ kept dropped, Parted (canonical candidates) kept dropped ∧
      ∀ set, pushDeduplicated candidates set = { set with
        entries := set.entries ++ kept.map entryOf
        exclusions := set.exclusions ++ dropped.map droppedAs } := by
  have hempty : Parted [] [] [] := ⟨.slnil, .nil, .nil, fun _ h => absurd h not_mem_nil⟩
  have hseen : Seen ∅ [] := by
    refine ⟨fun id name _ h => ?_, fun _ h => absurd h not_mem_nil⟩
    rw [Map.get_empty] at h
    cases h
  exact foldl_pushTensor (canonical candidates) hempty hseen

end Retrograd.Trainable
