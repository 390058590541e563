import Retrograd.Training.Batch

/-!
# Slots and groups

A batch's vectors are parallel: entry `i * size + m` of each of them belongs to member `m` of
the `i`-th group that was appended. `Gathers size groups slots` says that `slots` is exactly
that for the list `groups`, and `getElem?_flatMap` reads one entry back; **alignment of the
batch is this relation**, and every later phase that walks the vectors in step relies on it.
-/

namespace Retrograd.Training

open List
open Infer (Token)

/-! ### Equal blocks -/

variable {α β : Type} {l : List α}

/-- Entry `m` of the `i`-th of equally long blocks. -/
theorem getElem?_flatMap {f : α → List β} {size m : ℕ} (hm : m < size)
    (h : ∀ a ∈ l, (f a).length = size) (i : ℕ) :
    (l.flatMap f)[i * size + m]? = (l[i]?).bind fun a => (f a)[m]? := by
  induction l generalizing i with
  | nil => simp
  | cons a rest ih =>
    have ha : (f a).length = size := h a mem_cons_self
    rw [flatMap_cons]
    cases i with
    | zero => rw [Nat.zero_mul, Nat.zero_add, getElem?_append_left (by omega)]; rfl
    | succ i =>
      have hge : (f a).length ≤ (i + 1) * size + m := by rw [Nat.succ_mul]; omega
      have hsub : (i + 1) * size + m - (f a).length = i * size + m := by
        rw [Nat.succ_mul]; omega
      rw [getElem?_append_right hge, hsub, ih fun b hb => h b (mem_cons_of_mem _ hb)]
      rfl

theorem length_flatMap_blocks {f : α → List β} {size : ℕ} (h : ∀ a ∈ l, (f a).length = size) :
    (l.flatMap f).length = l.length * size := by
  induction l with
  | nil => simp
  | cons a rest ih =>
    rw [flatMap_cons, length_append, h a mem_cons_self,
      ih fun b hb => h b (mem_cons_of_mem _ hb), length_cons, Nat.succ_mul, Nat.add_comm]

theorem zipUpdate_eq_zipWith (f : α → β → α) {r : List β} (h : l.length = r.length) :
    zipUpdate f l r = l.zipWith f r := by
  induction l generalizing r with
  | nil => cases r <;> rfl
  | cons a l ih =>
    cases r with
    | nil => cases h
    | cons b r => rw [zipUpdate, zipWith_cons_cons, ih (by simpa using h)]

/-! ### Groups of one size -/

/-- Every vector of the group has one entry for each of `size` members. -/
structure SpareGroup.Sized (size : ℕ) (group : SpareGroup) : Prop where
  rollouts : group.rollouts.length = size
  completions : group.completions.length = size
  seeds : group.seeds.length = size
  rewards : group.rewards.length = size
  verifiableRewards : group.verifiableRewards.length = size
  judgeTerms : group.judgeTerms.length = size
  judgeVerdicts : group.judgeVerdicts.length = size

/-- The same rollout with its behavior scores filled in. -/
structure Rollout.Rescored (before after : Rollout) : Prop where
  tokens : after.tokens = before.tokens
  trainMask : after.trainMask = before.trainMask

theorem Rollout.Rescored.completionLen {before after : Rollout} (h : before.Rescored after) :
    after.completionLen = before.completionLen := by
  rw [Rollout.completionLen, Rollout.completionLen, h.trainMask]

/-- The slots are the groups' members, group after group, in every vector. -/
structure Gathers (size : ℕ) (groups : List SpareGroup) (slots : Slots) : Prop where
  rollouts : List.Forall₂ Rollout.Rescored (groups.flatMap SpareGroup.rollouts) slots.rollouts
  promptIndices : slots.promptIndices = groups.flatMap fun g => List.replicate size g.promptSlot
  completions : slots.completions = groups.flatMap SpareGroup.completions
  memberSeeds : slots.memberSeeds = groups.flatMap SpareGroup.seeds
  rewards : slots.rewards = groups.flatMap SpareGroup.rewards
  verifiableRewards : slots.verifiableRewards = groups.flatMap SpareGroup.verifiableRewards
  judgeTerms : slots.judgeTerms = groups.flatMap SpareGroup.judgeTerms
  judgeVerdicts : slots.judgeVerdicts = groups.flatMap SpareGroup.judgeVerdicts
  judgedGroups : slots.judgedGroups = groups.flatMap fun g => List.replicate size g.judged

theorem Gathers.nil {size : ℕ} : Gathers size [] {} where
  rollouts := .nil
  promptIndices := rfl
  completions := rfl
  memberSeeds := rfl
  rewards := rfl
  verifiableRewards := rfl
  judgeTerms := rfl
  judgeVerdicts := rfl
  judgedGroups := rfl

private theorem rescored_refl (l : List Rollout) : Forall₂ Rollout.Rescored l l :=
  forall₂_same.mpr fun _ _ => ⟨rfl, rfl⟩

theorem Gathers.extend {size : ℕ} {groups : List SpareGroup} {slots : Slots}
    (h : Gathers size groups slots) (group : SpareGroup) :
    Gathers size (groups ++ [group]) (slots.extend size group) where
  rollouts := by
    rw [flatMap_append, flatMap_singleton]
    exact rel_append h.rollouts (rescored_refl group.rollouts)
  promptIndices := by simp [Slots.extend, h.promptIndices]
  completions := by simp [Slots.extend, h.completions]
  memberSeeds := by simp [Slots.extend, h.memberSeeds]
  rewards := by simp [Slots.extend, h.rewards]
  verifiableRewards := by simp [Slots.extend, h.verifiableRewards]
  judgeTerms := by simp [Slots.extend, h.judgeTerms]
  judgeVerdicts := by simp [Slots.extend, h.judgeVerdicts]
  judgedGroups := by simp [Slots.extend, h.judgedGroups]

namespace Gathers

variable {size : ℕ} {groups : List SpareGroup} {slots : Slots}

/-- Every vector has one entry for each slot. -/
theorem lengths (h : Gathers size groups slots) (hsized : ∀ g ∈ groups, g.Sized size) :
    slots.rollouts.length = groups.length * size ∧
    slots.promptIndices.length = groups.length * size ∧
    slots.completions.length = groups.length * size ∧
    slots.memberSeeds.length = groups.length * size ∧
    slots.rewards.length = groups.length * size ∧
    slots.verifiableRewards.length = groups.length * size ∧
    slots.judgeTerms.length = groups.length * size ∧
    slots.judgeVerdicts.length = groups.length * size ∧
    slots.judgedGroups.length = groups.length * size := by
  rw [← h.rollouts.length_eq, h.promptIndices, h.completions, h.memberSeeds, h.rewards,
    h.verifiableRewards, h.judgeTerms, h.judgeVerdicts, h.judgedGroups]
  exact ⟨length_flatMap_blocks fun g hg => (hsized g hg).rollouts,
    length_flatMap_blocks fun _ _ => length_replicate,
    length_flatMap_blocks fun g hg => (hsized g hg).completions,
    length_flatMap_blocks fun g hg => (hsized g hg).seeds,
    length_flatMap_blocks fun g hg => (hsized g hg).rewards,
    length_flatMap_blocks fun g hg => (hsized g hg).verifiableRewards,
    length_flatMap_blocks fun g hg => (hsized g hg).judgeTerms,
    length_flatMap_blocks fun g hg => (hsized g hg).judgeVerdicts,
    length_flatMap_blocks fun _ _ => length_replicate⟩

variable {g : SpareGroup}

/-- The rollout of a slot is the group member's, whatever its scores. -/
theorem rollout (h : Gathers size groups slots) (hsized : ∀ g ∈ groups, g.Sized size) {i m : ℕ}
    (hg : groups[i]? = some g) (hm : m < size) : ∃ before after, g.rollouts[m]? = some before ∧
      slots.rollouts[i * size + m]? = some after ∧ before.Rescored after := by
  have hlen : m < g.rollouts.length := by
    rw [(hsized g (mem_of_getElem? hg)).rollouts]; exact hm
  have hbefore := getElem?_eq_getElem hlen
  have hslot : (groups.flatMap SpareGroup.rollouts)[i * size + m]? = some g.rollouts[m] := by
    rw [getElem?_flatMap hm fun a ha => (hsized a ha).rollouts, hg, ← hbefore]; rfl
  obtain ⟨hpos, hget⟩ := List.getElem?_eq_some_iff.mp hslot
  have hpos' : i * size + m < slots.rollouts.length := h.rollouts.length_eq ▸ hpos
  have hrel := forall₂_iff_get.mp h.rollouts |>.2 (i * size + m) hpos hpos'
  simp only [get_eq_getElem, hget] at hrel
  exact ⟨_, _, hbefore, getElem?_eq_getElem hpos', hrel⟩

/-- The reward of a slot is the group member's. -/
theorem reward (h : Gathers size groups slots) (hsized : ∀ g ∈ groups, g.Sized size) {i m : ℕ}
    (hg : groups[i]? = some g) (hm : m < size) : slots.rewards[i * size + m]? = g.rewards[m]? := by
  rw [h.rewards, getElem?_flatMap hm fun a ha => (hsized a ha).rewards, hg]
  rfl

/-- The judged flag of a slot is its group's. -/
theorem judged (h : Gathers size groups slots) {i m : ℕ} (hg : groups[i]? = some g)
    (hm : m < size) : slots.judgedGroups[i * size + m]? = some g.judged := by
  rw [h.judgedGroups, getElem?_flatMap hm fun _ _ => length_replicate, hg]
  simp [hm]

end Gathers

end Retrograd.Training
