import Retrograd.Training.Baseline
import Retrograd.Training.Scored

/-!
# The assembled batch

What `assembleBatch` returns, for every answer of the runtime, the reward command and the judge.
The groups drawn fall into those dynamic sampling chooses and those it sets aside; the batch is
the chosen ones in draw order, followed by as many of the others as it takes to fill it
(`Filled` while waves are drawn, `Assembled` at the end). A chosen group is never displaced,
because a wave draws no more groups than the batch still misses.

`assembleBatch_assembles` is the statement of the whole phase, with the fate of each group in the
centering that follows: a chosen group keeps live members, padding is fully dead.
-/

namespace Retrograd.Training

open List
open Infer (Token)
open Logic

variable {σ : Type} {out : Outside σ} {config : GrpoConfig} {setup : Setup}

/-- The checks a run makes before its first update, with the number of slots of its batches. -/
def rolloutsPerUpdate (config : GrpoConfig) : Except Error ℕ := do
  config.validate
  if config.promptsPerUpdate * config.groupSize ≤ usizeMax then
    pure (config.promptsPerUpdate * config.groupSize)
  else throw (.overflow "GRPO rollout count overflows usize")

/-- What the checks leave of a configuration. -/
structure Checked (config : GrpoConfig) (rollouts : ℕ) : Prop where
  rollouts : rollouts = config.promptsPerUpdate * config.groupSize
  bound : config.promptsPerUpdate ≤ usizeMax
  groupSize : 0 < config.groupSize
  factor : ∀ dynamic, config.dynamicSampling = some dynamic → 2 ≤ dynamic.maxResampleFactor

private theorem groupSize_of_validateShape (h : config.validateShape = .ok ()) :
    2 ≤ config.groupSize := by
  by_contra hlt
  unfold GrpoConfig.validateShape at h
  dsimp only at h
  split at h
  · cases h
  · rw [if_pos (by omega)] at h
    cases h

private theorem factor_of_validateDynamic {dynamic : DynamicSampling}
    (h : config.validateDynamic = .ok ()) (hdynamic : config.dynamicSampling = some dynamic) :
    2 ≤ dynamic.maxResampleFactor := by
  by_contra hlt
  simp only [GrpoConfig.validateDynamic, hdynamic, if_pos (Nat.lt_of_not_ge hlt)] at h
  cases h

theorem checked_of_rolloutsPerUpdate {rollouts : ℕ} (h : rolloutsPerUpdate config = .ok rollouts) :
    Checked config rollouts := by
  obtain ⟨_, hvalid, h⟩ := ok_of_bind h
  obtain ⟨_, -, hvalid⟩ := ok_of_bind hvalid
  obtain ⟨_, hshape, hvalid⟩ := ok_of_bind hvalid
  obtain ⟨_, -, hvalid⟩ := ok_of_bind hvalid
  obtain ⟨_, -, hvalid⟩ := ok_of_bind hvalid
  obtain ⟨_, -, hvalid⟩ := ok_of_bind hvalid
  obtain ⟨_, -, hvalid⟩ := ok_of_bind hvalid
  obtain ⟨_, -, hvalid⟩ := ok_of_bind hvalid
  obtain ⟨_, -, hdynamic⟩ := ok_of_bind hvalid
  have hsize := groupSize_of_validateShape hshape
  split at h
  · next hfits =>
    cases h
    have hbound : config.promptsPerUpdate * 1 ≤ config.promptsPerUpdate * config.groupSize :=
      Nat.mul_le_mul_left _ (by omega)
    exact ⟨rfl, by omega, by omega, fun dynamic => factor_of_validateDynamic hdynamic⟩
  · cases h

/-- The candidate budget is never below the batch. -/
theorem Checked.budget {rollouts : ℕ} (h : Checked config rollouts) :
    config.promptsPerUpdate ≤ maxCandidateGroups config := by
  unfold maxCandidateGroups
  cases hdynamic : config.dynamicSampling with
  | none => exact le_rfl
  | some dynamic =>
    have hfactor := h.factor dynamic hdynamic
    refine le_min ?_ h.bound
    calc config.promptsPerUpdate = config.promptsPerUpdate * 1 := (Nat.mul_one _).symm
      _ ≤ config.promptsPerUpdate * dynamic.maxResampleFactor :=
        Nat.mul_le_mul_left _ (by omega)

/-! ### Chosen and set aside -/

/-- Whether a drawn group goes into the batch on its own account. -/
def chosen (config : GrpoConfig) (lossDenominator : ℕ) (group : SpareGroup) : Bool :=
  config.dynamicSampling.isNone || informative config lossDenominator group

/-- The drawn groups that are chosen, in draw order. -/
def keptOf (config : GrpoConfig) (lossDenominator : ℕ) (drawn : List SpareGroup) :
    List SpareGroup :=
  drawn.filter (chosen config lossDenominator)

/-- The drawn groups that are set aside, in draw order. -/
def asideOf (config : GrpoConfig) (lossDenominator : ℕ) (drawn : List SpareGroup) :
    List SpareGroup :=
  drawn.filter fun group => !chosen config lossDenominator group

theorem length_kept_add_aside (lossDenominator : ℕ) (drawn : List SpareGroup) :
    (keptOf config lossDenominator drawn).length + (asideOf config lossDenominator drawn).length =
      drawn.length := by
  induction drawn with
  | nil => rfl
  | cons g rest ih =>
    unfold keptOf asideOf at ih ⊢
    by_cases h : chosen config lossDenominator g = true
    · rw [filter_cons_of_pos h, filter_cons_of_neg (by simp [h])]
      simp only [length_cons]
      omega
    · rw [filter_cons_of_neg h, filter_cons_of_pos (by simp [h])]
      simp only [length_cons]
      omega

/-- The batch under assembly holds the chosen groups, and the others wait aside. -/
structure Placed (config : GrpoConfig) (lossDenominator : ℕ) (drawn : List SpareGroup)
    (acc : Assembly) : Prop where
  kept : acc.keptGroups = (keptOf config lossDenominator drawn).length
  slots : Gathers config.groupSize (keptOf config lossDenominator drawn) acc.slots
  spare : acc.spare = asideOf config lossDenominator drawn

variable {lossDenominator : ℕ} {drawn : List SpareGroup} {acc : Assembly}

/-- While the batch has room, a group is kept exactly when it is chosen. -/
theorem Placed.place (h : Placed config lossDenominator drawn acc)
    (hroom : acc.keptGroups < config.promptsPerUpdate) (group : SpareGroup) :
    Placed config lossDenominator (drawn ++ [group])
      (placeGroup config lossDenominator acc group) := by
  have hkeep : (config.dynamicSampling.isNone || (decide (acc.keptGroups < config.promptsPerUpdate)
      && informative config lossDenominator group)) = chosen config lossDenominator group := by
    rw [decide_eq_true hroom, Bool.true_and]
    rfl
  unfold placeGroup
  rw [hkeep]
  by_cases hchosen : chosen config lossDenominator group = true
  · rw [if_pos hchosen]
    refine ⟨?_, ?_, ?_⟩
    · simp [keptOf, hchosen, h.kept]
    · simpa [keptOf, hchosen] using h.slots.extend group
    · simp [asideOf, hchosen, h.spare]
  · rw [if_neg hchosen]
    refine ⟨?_, ?_, ?_⟩
    · simp [keptOf, hchosen, h.kept]
    · simpa [keptOf, hchosen] using h.slots
    · simp [asideOf, hchosen, h.spare]

theorem placeGroup_kept_le (lossDenominator : ℕ) (acc : Assembly) (group : SpareGroup) :
    (placeGroup config lossDenominator acc group).keptGroups ≤ acc.keptGroups + 1 := by
  unfold placeGroup
  split <;> simp

@[simp] theorem placeGroup_sampled (lossDenominator : ℕ) (acc : Assembly) (group : SpareGroup) :
    (placeGroup config lossDenominator acc group).groupsSampled = acc.groupsSampled := by
  unfold placeGroup
  split <;> rfl

/-- A wave no larger than the room left is placed group by group. -/
theorem Placed.placeAll (h : Placed config lossDenominator drawn acc) (groups : List SpareGroup)
    (hroom : acc.keptGroups + groups.length ≤ config.promptsPerUpdate) :
    Placed config lossDenominator (drawn ++ groups)
        (groups.foldl (placeGroup config lossDenominator) acc) ∧
      (groups.foldl (placeGroup config lossDenominator) acc).groupsSampled = acc.groupsSampled ∧
      (groups.foldl (placeGroup config lossDenominator) acc).keptGroups ≤
        acc.keptGroups + groups.length := by
  induction groups generalizing drawn acc with
  | nil => simpa using h
  | cons group rest ih =>
    rw [length_cons] at hroom
    have hle : (placeGroup config lossDenominator acc group).keptGroups ≤ acc.keptGroups + 1 :=
      placeGroup_kept_le lossDenominator acc group
    obtain ⟨hplaced, hsampled, hkept⟩ := ih (h.place (by omega) group) (by omega)
    rw [append_assoc, singleton_append] at hplaced
    refine ⟨hplaced, by simpa using hsampled, ?_⟩
    rw [foldl_cons, length_cons]
    omega

/-! ### All waves -/

/-- The state of the assembly between two waves, with every group drawn so far. -/
structure Filled (out : Outside σ) (config : GrpoConfig) (setup : Setup) (cursor : ℕ)
    (drawn : List SpareGroup) (acc : Assembly) (run : Run σ) : Prop where
  placed : Placed config setup.lossDenominator drawn acc
  sampled : acc.groupsSampled = drawn.length
  room : acc.keptGroups ≤ config.promptsPerUpdate
  budget : acc.groupsSampled ≤ maxCandidateGroups config
  atCursor : run.promptCursor = cursor + drawn.length
  groups : ∀ (k : ℕ) (g : SpareGroup), drawn[k]? = some g →
    DrawnGroup out config setup (cursor + k) g

/-- One wave extends what was drawn and keeps the assembly in order. -/
theorem Filled.wave {cursor round : ℕ} {run : Run σ} (hsize : 0 < config.groupSize)
    (h : Filled out config setup cursor drawn acc run)
    (hround : acc.keptGroups + round ≤ config.promptsPerUpdate)
    (hbudget : acc.groupsSampled + round ≤ maxCandidateGroups config) :
    wp (wave out config setup round acc) (fun acc' run' =>
      acc'.groupsSampled = acc.groupsSampled + round ∧
      ∃ drawn', Filled out config setup cursor drawn' acc' run') (fun _ _ => True) run := by
  refine wp_mono (wave_spec hsize) (fun acc' run' ⟨hcursor, groups, tally, hlen, hgroups, hacc⟩ => ?_)
    fun _ _ h => h
  have hstart : Placed config setup.lossDenominator drawn
      { acc with groupsSampled := acc.groupsSampled + round, judgeTally := tally } :=
    ⟨h.placed.kept, h.placed.slots, h.placed.spare⟩
  obtain ⟨hplaced, hsampled, hkept⟩ := hstart.placeAll groups (by simpa [hlen] using hround)
  rw [← hacc] at hplaced hsampled hkept
  dsimp only at hsampled hkept
  refine ⟨hsampled, drawn ++ groups, hplaced, ?_, by omega, by omega, ?_, fun k g hg => ?_⟩
  · rw [hsampled, h.sampled, length_append, hlen]
  · rw [hcursor, h.atCursor, length_append, hlen, Nat.add_assoc]
  · by_cases hk : k < drawn.length
    · rw [getElem?_append_left hk] at hg
      exact h.groups k g hg
    · rw [getElem?_append_right (by omega)] at hg
      have hat : run.promptCursor + (k - drawn.length) = cursor + k := by
        rw [h.atCursor]
        omega
      exact hat ▸ hgroups (k - drawn.length) g hg

/-- The loop ends with the batch full or the candidate budget spent. -/
theorem waves_spec (hsize : 0 < config.groupSize) (fuel : ℕ) {cursor : ℕ} {run : Run σ}
    (h : Filled out config setup cursor drawn acc run)
    (hfuel : maxCandidateGroups config ≤ acc.groupsSampled + fuel) :
    wp (waves out config setup fuel acc) (fun acc' run' =>
      (acc'.keptGroups = config.promptsPerUpdate ∨
        acc'.groupsSampled = maxCandidateGroups config) ∧
      ∃ drawn', Filled out config setup cursor drawn' acc' run') (fun _ _ => True) run := by
  induction fuel generalizing drawn acc run with
  | zero =>
    have hbudget := h.budget
    exact ⟨.inr (by omega), drawn, h⟩
  | succ fuel ih =>
    have hroom := h.room
    have hbudget := h.budget
    unfold waves
    split
    · next hmore =>
      rw [wp_bind]
      refine wp_mono (h.wave hsize (by omega) (by omega)) (fun acc' run' ⟨hsampled, drawn', h'⟩ => ?_)
        fun _ _ h => h
      -- every wave draws at least one group, so the fuel outlasts the budget
      exact ih h' (by omega)
    · next hdone => exact ⟨by omega, drawn, h⟩

/-! ### Padding -/

variable {slots : Slots}

theorem Gathers.extendAll {size : ℕ} {groups : List SpareGroup} (h : Gathers size groups slots)
    (padding : List SpareGroup) (hsized : ∀ g ∈ padding, g.Sized size) :
    Gathers size (groups ++ padding)
      (padding.foldl (fun slots group => slots.extend group.rollouts.length group) slots) := by
  induction padding generalizing groups slots with
  | nil => simpa using h
  | cons group rest ih =>
    rw [foldl_cons, (hsized group mem_cons_self).rollouts]
    have hnext := ih (h.extend group) fun g hg => hsized g (mem_cons_of_mem _ hg)
    rwa [append_assoc, singleton_append] at hnext

/-- The groups set aside fill the batch up, however few were chosen. -/
theorem Filled.pad {rollouts cursor : ℕ} {run : Run σ} (hchecked : Checked config rollouts)
    (h : Filled out config setup cursor drawn acc run)
    (hdone : acc.keptGroups = config.promptsPerUpdate ∨ acc.groupsSampled = maxCandidateGroups config) :
    ∃ padding, padding <+: asideOf config setup.lossDenominator drawn ∧
      (keptOf config setup.lossDenominator drawn ++ padding).length = config.promptsPerUpdate ∧
      Gathers config.groupSize (keptOf config setup.lossDenominator drawn ++ padding)
        (pad config acc).slots := by
  have hroom := h.room
  have hsplit := @length_kept_add_aside config setup.lossDenominator drawn
  rw [← h.placed.kept, ← h.sampled] at hsplit
  unfold Training.pad
  split
  · next hmissing =>
    -- the batch is short, so the whole budget was drawn and the rest of it waits aside
    have hbudget := hchecked.budget
    have hspare : acc.spare.length = (asideOf config setup.lossDenominator drawn).length := by
      rw [h.placed.spare]
    refine ⟨_, h.placed.spare ▸ take_prefix (min (config.promptsPerUpdate - acc.keptGroups)
      acc.spare.length) acc.spare, ?_, h.placed.slots.extendAll _ fun g hg => ?_⟩
    · rw [length_append, length_take, ← h.placed.kept]
      omega
    · have hmem : g ∈ drawn := by
        have haside := mem_of_mem_take hg
        rw [h.placed.spare] at haside
        exact mem_of_mem_filter haside
      obtain ⟨k, hk⟩ := mem_iff_getElem?.mp hmem
      exact (h.groups k g hk).sized
  · refine ⟨[], nil_prefix, ?_, by simpa using h.placed.slots⟩
    rw [append_nil, ← h.placed.kept]
    omega

/-! ### Behavior scores -/

private theorem zipUpdate_related {α β : Type} {R : α → α → Prop} {f : α → β → α}
    (hrefl : ∀ a, R a a) (hf : ∀ a b, R a (f a b)) (l : List α) (r : List β) :
    Forall₂ R l (zipUpdate f l r) := by
  induction l generalizing r with
  | nil => exact .nil
  | cons a l ih =>
    cases r with
    | nil => exact forall₂_same.mpr fun a _ => hrefl a
    | cons b r => exact .cons (hf a b) (ih r)

theorem scoreGroup_returns {group : List Rollout} :
    Returns (scoreGroup out group) (Forall₂ Rollout.Rescored group) :=
  Returns.any.bind fun scores _ => Returns.pure <|
    zipUpdate_related (fun _ => ⟨rfl, rfl⟩) (fun _ _ => ⟨rfl, rfl⟩) group scores

private theorem flatten_drops {α : Type} (size n : ℕ) (l : List α) (h : l.length ≤ n * size) :
    ((List.range n).map fun i => (l.drop (i * size)).take size).flatten = l := by
  induction n generalizing l with
  | zero =>
    have hnil : l = [] := length_eq_zero_iff.mp (by omega)
    simp [hnil]
  | succ n ih =>
    rw [Nat.succ_mul] at h
    have hrest := ih (l.drop size) (by rw [length_drop]; omega)
    have hdrop : ∀ i, (l.drop size).drop (i * size) = l.drop ((i + 1) * size) := by
      intro i
      rw [drop_drop, Nat.succ_mul, Nat.add_comm]
    simp only [hdrop] at hrest
    rw [range_succ_eq_map, map_cons, map_map, flatten_cons, Nat.zero_mul,
      drop_zero]
    exact (congrArg (l.take size ++ ·) hrest).trans (take_append_drop size l)

/-- The chunks of a list, put together again. -/
theorem flatten_chunks {α : Type} {size : ℕ} (hsize : 0 < size) (l : List α) :
    (chunks size l).flatten = l := by
  refine flatten_drops size _ l ?_
  have h := Nat.lt_div_mul_add hsize (a := l.length + size - 1)
  omega

private theorem rescored_trans {l l' l'' : List Rollout}
    (h : Forall₂ Rollout.Rescored l l') (h' : Forall₂ Rollout.Rescored l' l'') :
    Forall₂ Rollout.Rescored l l'' := by
  induction h generalizing l'' with
  | nil => cases h'; exact .nil
  | cons hab _ ih =>
    cases h' with
    | cons hbc hrest =>
      exact .cons ⟨hbc.tokens.trans hab.tokens, hbc.trainMask.trans hab.trainMask⟩ (ih hrest)

theorem Gathers.rescore {size : ℕ} {groups : List SpareGroup} (hsize : 0 < size)
    (h : Gathers size groups slots) {scored : List (List Rollout)}
    (hscored : Forall₂ (Forall₂ Rollout.Rescored) (chunks size slots.rollouts) scored) :
    Gathers size groups { slots with rollouts := scored.flatten } := by
  have hflat := rel_flatten hscored
  rw [flatten_chunks hsize] at hflat
  exact { h with rollouts := rescored_trans h.rollouts hflat }

/-! ### The fate of a group -/

/-- How many members of group `i` a batch's flags leave live. -/
def liveIn (size : ℕ) (live : List Bool) (i : ℕ) : ℕ :=
  (List.range size).countP fun m => live.getD (i * size + m) false

private theorem length_filterMap_le {rollouts : List Rollout} {rewards : List Float32}
    {mask : Bool} {penalty : Option OverlongPenalty} :
    (signalRewards rollouts rewards mask penalty lossDenominator).length ≤
      rollouts.countP fun r => !(mask && isTruncated r.completionLen lossDenominator) := by
  unfold signalRewards
  induction rollouts generalizing rewards with
  | nil => simp
  | cons r rest ih =>
    cases rewards with
    | nil => simp
    | cons reward rewards =>
      rw [zip_cons_cons, filterMap_cons, countP_cons]
      have htail := @ih rewards
      cases mask && isTruncated r.completionLen lossDenominator with
      | true => simpa using htail
      | false => simpa using htail

section Centered

variable {lossDenominator i : ℕ} {groups : List SpareGroup} {group : SpareGroup} {slots : Slots}
  {advantages : List Float32} {live : List Bool} {diagnostics : GroupDiagnostics}

private theorem countP_range_getD {α : Type} (p : α → Bool) (d : α) (l : List α) :
    (List.range l.length).countP (fun m => p (l.getD m d)) = l.countP p := by
  have hmap : (List.range l.length).map (fun m => l.getD m d) = l := by
    refine ext_getElem (by simp) fun m hm hm' => ?_
    simp [getD_eq_getElem?_getD, getElem?_eq_getElem hm']
  calc (List.range l.length).countP (fun m => p (l.getD m d))
      = ((List.range l.length).map fun m => l.getD m d).countP p := (countP_map ..).symm
    _ = l.countP p := by rw [hmap]

/-- What the centering leaves live of a group: its unmasked members, or nothing. -/
theorem liveIn_eq (hsize : 0 < config.groupSize)
    (hgathers : Gathers config.groupSize groups slots)
    (hsized : ∀ g ∈ groups, g.Sized config.groupSize)
    (hcount : groups.length = config.promptsPerUpdate)
    (h : centerBatch config lossDenominator slots = .ok (advantages, live, diagnostics))
    (hg : groups[i]? = some group) :
    liveIn config.groupSize live i =
      if informative config lossDenominator group then
        group.rollouts.countP (unmasked config lossDenominator)
      else 0 := by
  have hgroup := (hsized group (mem_of_getElem? hg)).rollouts
  have hflag : ∀ m ∈ List.range config.groupSize, live.getD (i * config.groupSize + m) false =
      (unmasked config lossDenominator (group.rollouts.getD m ⟨[], [], []⟩) &&
        informative config lossDenominator group) := by
    intro m hm
    have hm := mem_range.mp hm
    refine centerBatch_live hsize hgathers hsized hcount h hg hm ?_
    simp [getD_eq_getElem?_getD, hgroup, hm]
  unfold liveIn
  cases hinformative : informative config lossDenominator group with
  | true =>
    rw [if_pos rfl, ← countP_range_getD _ (⟨[], [], []⟩ : Rollout), hgroup]
    refine countP_congr fun m hm => ?_
    rw [hflag m hm, hinformative, Bool.and_true]
  | false =>
    rw [if_neg Bool.false_ne_true, countP_eq_zero]
    intro m hm
    rw [hflag m hm, hinformative, Bool.and_false]
    exact Bool.false_ne_true

/-- An informative group has at least two members that are not masked. -/
theorem two_le_unmasked (h : informative config lossDenominator group = true) :
    2 ≤ group.rollouts.countP (unmasked config lossDenominator) := by
  have hspread := groupHasSignal_iff.mp (Bool.and_eq_true_iff.mp h).2
  exact hspread.1.trans length_filterMap_le

end Centered

/-! ### The whole phase -/

/-- An assembled batch: `drawn` are the groups the update sampled, `padding` those of them that
were not chosen and fill the batch up. -/
structure Assembled (out : Outside σ) (config : GrpoConfig) (setup : Setup) (start : ℕ)
    (drawn padding : List SpareGroup) (batch : TrainingBatch) (run' : Run σ) : Prop where
  sampled : drawn.length = batch.groupsSampled
  cursor : run'.promptCursor = start + batch.groupsSampled
  groups : ∀ (k : ℕ) (g : SpareGroup), drawn[k]? = some g →
    DrawnGroup out config setup (start + k) g
  rejected : padding <+: asideOf config setup.lossDenominator drawn
  slots : Gathers config.groupSize (keptOf config setup.lossDenominator drawn ++ padding)
    batch.slots
  once : (keptOf config setup.lossDenominator drawn ++ padding).Subperm drawn
  full : (keptOf config setup.lossDenominator drawn ++ padding).length = config.promptsPerUpdate
  lengths : ∀ n ∈ [batch.slots.rollouts.length, batch.slots.promptIndices.length,
    batch.slots.completions.length, batch.slots.memberSeeds.length, batch.slots.rewards.length,
    batch.slots.verifiableRewards.length, batch.slots.judgeTerms.length,
    batch.slots.judgeVerdicts.length, batch.slots.judgedGroups.length],
    n = config.promptsPerUpdate * config.groupSize
  fate : config.dynamicSampling.isSome → ∀ advantages live diagnostics,
    centerBatch config setup.lossDenominator batch.slots = .ok (advantages, live, diagnostics) →
    (∀ i < (keptOf config setup.lossDenominator drawn).length,
      2 ≤ liveIn config.groupSize live i) ∧
    ∀ i < config.promptsPerUpdate, (keptOf config setup.lossDenominator drawn).length ≤ i →
      liveIn config.groupSize live i = 0

private theorem kept_append_subperm {drawn padding : List SpareGroup}
    (h : padding <+: asideOf config lossDenominator drawn) :
    (keptOf config lossDenominator drawn ++ padding).Subperm drawn := by
  have hsub := (Sublist.refl (keptOf config lossDenominator drawn)).append h.sublist
  exact hsub.subperm.trans (filter_append_perm (chosen config lossDenominator) drawn).subperm

private theorem fate_of_groups {drawn padding : List SpareGroup} (hsize : 0 < config.groupSize)
    (hdynamic : config.dynamicSampling.isSome)
    (hpadding : padding <+: asideOf config lossDenominator drawn)
    (hslots : Gathers config.groupSize (keptOf config lossDenominator drawn ++ padding) slots)
    (hsized : ∀ g ∈ keptOf config lossDenominator drawn ++ padding, g.Sized config.groupSize)
    (hfull : (keptOf config lossDenominator drawn ++ padding).length = config.promptsPerUpdate)
    {advantages : List Float32} {live : List Bool} {diagnostics : GroupDiagnostics}
    (h : centerBatch config lossDenominator slots = .ok (advantages, live, diagnostics)) :
    (∀ i < (keptOf config lossDenominator drawn).length, 2 ≤ liveIn config.groupSize live i) ∧
    ∀ i < config.promptsPerUpdate, (keptOf config lossDenominator drawn).length ≤ i →
      liveIn config.groupSize live i = 0 := by
  have hchosen : ∀ g, chosen config lossDenominator g = informative config lossDenominator g := by
    intro g
    obtain ⟨dynamic, hd⟩ := Option.isSome_iff_exists.mp hdynamic
    rw [chosen, hd]
    rfl
  constructor
  · intro i hi
    have hg : (keptOf config lossDenominator drawn ++ padding)[i]? =
        some (keptOf config lossDenominator drawn)[i] := by
      rw [getElem?_append_left hi, getElem?_eq_getElem hi]
    have hinformative := (mem_filter.mp (getElem_mem hi)).2
    rw [hchosen] at hinformative
    rw [liveIn_eq hsize hslots hsized hfull h hg, if_pos hinformative]
    exact two_le_unmasked hinformative
  · intro i hi hkept
    have hi' : i < (keptOf config lossDenominator drawn ++ padding).length := hfull ▸ hi
    have hg := getElem?_eq_getElem hi'
    have hmem : (keptOf config lossDenominator drawn ++ padding)[i] ∈
        asideOf config lossDenominator drawn := by
      rw [getElem_append_right hkept]
      exact hpadding.subset (getElem_mem _)
    have hrejected := (mem_filter.mp hmem).2
    rw [hchosen, Bool.not_eq_true'] at hrejected
    rw [liveIn_eq hsize hslots hsized hfull h hg, if_neg (by rw [hrejected]; decide)]

/-- Every batch the phase returns is assembled from the groups it drew. -/
theorem assembleBatch_assembles {rollouts : ℕ} {run run' : Run σ} {batch : TrainingBatch}
    (hchecked : rolloutsPerUpdate config = .ok rollouts)
    (h : assembleBatch out config setup run = .ok batch run') :
    ∃ drawn padding, Assembled out config setup run.promptCursor drawn padding batch run' := by
  have hconfig := checked_of_rolloutsPerUpdate hchecked
  have hsize := hconfig.groupSize
  have hstart : Filled out config setup run.promptCursor [] {} run :=
    ⟨⟨rfl, .nil, rfl⟩, rfl, Nat.zero_le _, Nat.zero_le _, rfl, fun k g hg => by simp at hg⟩
  suffices hwp : wp (assembleBatch out config setup) (fun batch run' =>
      ∃ drawn padding, Assembled out config setup run.promptCursor drawn padding batch run')
      (fun _ _ => True) run from wp_of_ok hwp h
  unfold assembleBatch
  rw [wp_bind]
  refine wp_mono (waves_spec hsize _ hstart (Nat.le_add_left ..)) ?_ fun _ _ h => h
  rintro acc run₁ ⟨hdone, drawn, hfilled⟩
  obtain ⟨padding, hpadding, hfull, hslots⟩ := hfilled.pad hconfig hdone
  have hsized : ∀ g ∈ keptOf config setup.lossDenominator drawn ++ padding,
      g.Sized config.groupSize := by
    intro g hg
    have hmem := (kept_append_subperm hpadding).subset hg
    obtain ⟨k, hk⟩ := List.mem_iff_getElem?.mp hmem
    exact (hfilled.groups k g hk).sized
  simp only [wp_bind]
  refine wp_mono (wp_outside Returns.any) ?_ fun _ _ h => h
  rintro _ run₂ ⟨_, hcursor₂, _⟩
  refine wp_mono (wp_outside Returns.any) ?_ fun _ _ h => h
  rintro _ run₃ ⟨_, hcursor₃, _⟩
  refine wp_mono (wp_outside (Returns.mapM fun _ _ => scoreGroup_returns)) ?_ fun _ _ h => h
  rintro scored run₄ ⟨hscored, hcursor₄, _⟩
  refine wp_mono (wp_outside Returns.any) ?_ fun _ _ h => h
  rintro _ run₅ ⟨_, hcursor₅, _⟩
  have hpadded : (Training.pad config acc).groupsSampled = acc.groupsSampled := by
    unfold Training.pad
    split <;> rfl
  have hfinal := hslots.rescore hsize hscored
  have hlens := hfinal.lengths hsized
  rw [hfull] at hlens
  have hcursor := hfilled.atCursor
  refine ⟨drawn, padding,
    { sampled := (hpadded.trans hfilled.sampled).symm
      cursor := ?_
      groups := hfilled.groups
      rejected := hpadding
      slots := hfinal
      once := kept_append_subperm hpadding
      full := hfull
      lengths := ?_
      fate := fun hdynamic _ _ _ hcentered =>
        fate_of_groups hsize hdynamic hpadding hfinal hsized hfull hcentered }⟩
  · have hsampled := hfilled.sampled
    dsimp only
    omega
  · obtain ⟨h₁, h₂, h₃, h₄, h₅, h₆, h₇, h₈, h₉⟩ := hlens
    simp only [List.forall_mem_cons, List.not_mem_nil, false_implies, implies_true, and_true]
    exact ⟨h₁, h₂, h₃, h₄, h₅, h₆, h₇, h₈, h₉⟩

/-! ### A small run -/

/-- A world that answers every request with one token and rewards nothing on the first call. -/
private def small : Outside ℕ where
  newScheduler _ s := (.ok (), s)
  runRequests requests s :=
    (.ok (requests.map fun r => ⟨r.sampling.map fun _ => ⟨[7], [false]⟩, none⟩), s)
  detokenize _ s := (.ok "x", s)
  scoreTokenSuffixBatch inputs s :=
    (.ok (inputs.map fun i => List.replicate (i.1.length - i.2) 0), s)
  scoringStats s := (.ok (), s)
  rewardLines requests s :=
    (.ok (requests.zipIdx.map fun r => ⟨if s = 1 ∧ r.2 = 0 then 1 else 0, none⟩), s + 1)
  scoreGroups _ s := (.ok [], s)

private def smallConfig : GrpoConfig where
  rewardCommand := ["reward"]
  updates := 1
  promptsPerUpdate := 2
  groupSize := 2
  grpoEpochs := 1
  clipRangeLow := 0.5
  clipRangeHigh := 0.5
  klCoefficient := 0
  maskTruncated := true
  baseline := .leaveOneOut
  promptOrder := .sequential
  overlongPenalty := none
  klSchedule := none
  dynamicSampling := some ⟨2⟩
  judge := none
  sampling := ⟨1, 1, 4, 5⟩

private def smallSetup : Setup where
  layout := ⟨8, 8, 0, 8, 8, 1, .auto, 1, .lockstep, 1, 1⟩
  lossDenominator := 4
  judge := none
  prompts := [⟨[], "p", none⟩]
  promptRows := [[3]]
  generationConcurrency := 2

/-- Two waves: the second one has a group with a signal, and the first one pads the batch. -/
theorem small_assembles : ∃ batch run' drawn padding,
    assembleBatch small smallConfig smallSetup ⟨0, 0, .new .sequential 1 5⟩ = .ok batch run' ∧
    Assembled small smallConfig smallSetup 0 drawn padding batch run' := by
  have hchecked : rolloutsPerUpdate smallConfig = .ok 4 := by decide +kernel
  cases hrun : assembleBatch small smallConfig smallSetup ⟨0, 0, .new .sequential 1 5⟩ with
  | error e run' =>
    have hok : (match assembleBatch small smallConfig smallSetup ⟨0, 0, .new .sequential 1 5⟩ with
      | .ok _ _ => true
      | .error _ _ => false) = true := by decide +kernel
    rw [hrun] at hok
    cases hok
  | ok batch run' =>
    obtain ⟨drawn, padding, h⟩ := assembleBatch_assembles hchecked hrun
    exact ⟨batch, run', drawn, padding, rfl, h⟩

end Retrograd.Training
