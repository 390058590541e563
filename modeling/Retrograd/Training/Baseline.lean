import Retrograd.Training.Slots

/-!
# The group-relative baseline

Phase 2 of an update, up to the advantages: the rewards are shaped, the members that do not
count are masked, and `groupAdvantages` centers what is left, slot `i` belonging to group
`i / groupSize`.

The theorem of this file is that the filter of phase 1 and the marking of phase 2 are **one
test**. On the slots of a batch built from groups of the configured size, a group comes out of
the centering with its unmasked members live exactly when it was judged and has a signal, and
fully dead otherwise (`centerBatch_live`).
-/

namespace Retrograd.Training

open Logic List

/-- The rewards the baseline centers: the overlong penalty taken off. -/
def shapedRewards (config : GrpoConfig) (lossDenominator : ℕ) (slots : Slots) : List Float32 :=
  match config.overlongPenalty with
  | none => slots.rewards
  | some penalty =>
    zipUpdate (fun reward rollout =>
        reward - overlongShapedPenalty penalty rollout.completionLen lossDenominator)
      slots.rewards slots.rollouts

/-- Which slots count: not masked as truncated, and of a group the judge did not drop. -/
def liveFlags (config : GrpoConfig) (lossDenominator : ℕ) (slots : Slots) : List Bool :=
  let live := List.replicate slots.rollouts.length true
  let live := if config.maskTruncated then
      zipUpdate (fun _ rollout => !isTruncated rollout.completionLen lossDenominator) live
        slots.rollouts
    else live
  zipUpdate (fun flag judged => flag && judged) live slots.judgedGroups

/-- The group of every slot. -/
def groupIds (config : GrpoConfig) : List ℕ :=
  (List.range config.promptsPerUpdate).flatMap fun group => List.replicate config.groupSize group

/-- The advantages of a batch, with the slots that stay live. -/
def centerBatch (config : GrpoConfig) (lossDenominator : ℕ) (slots : Slots) :
    Except Error (List Float32 × List Bool × GroupDiagnostics) :=
  groupAdvantages (shapedRewards config lossDenominator slots) (groupIds config)
    (liveFlags config lossDenominator slots) config.baseline

/-! ### The two uniformity tests -/

/-- Comparing neighbours is comparing everything to the first. -/
theorem uniform_iff (first : Float32) (second : Float32) (rest : List Float32) :
    uniform (first :: second :: rest) = (first :: second :: rest).all fun r => r == first := by
  rw [Bool.eq_iff_iff]
  simp only [uniform, all_eq_true, tail_cons]
  constructor
  · intro h
    -- every entry from the second on equals the first, walking along the pairs
    have hall : ∀ (l : List Float32) (a : Float32), (a == first) = true →
        (∀ pair ∈ (a :: l).zip l, (pair.1 == pair.2) = true) →
        ∀ r ∈ l, (r == first) = true := by
      intro l
      induction l with
      | nil => exact fun _ _ _ r hr => absurd hr not_mem_nil
      | cons b l ih =>
        intro a ha hpairs r hr
        have hab : (a == b) = true := hpairs (a, b) (by simp)
        have hb : (b == first) = true := f32_beq_trans (f32_beq_symm hab) ha
        rcases mem_cons.mp hr with rfl | hr
        · exact hb
        · exact ih b hb (fun pair hp => hpairs pair (by simp [hp])) r hr
    have hfs : (first == second) = true := h (first, second) (by simp)
    have hff : (first == first) = true := f32_beq_trans hfs (f32_beq_symm hfs)
    intro r hr
    rcases mem_cons.mp hr with rfl | hr
    · exact hff
    · exact hall (second :: rest) first hff h r hr
  · rintro h ⟨a, b⟩ hpair
    have ha := h a (of_mem_zip hpair).1
    have hb := h b (mem_cons_of_mem _ (of_mem_zip hpair).2)
    exact f32_beq_trans ha (f32_beq_symm hb)

/-- At least two rewards, not all the same. -/
def HasSpread (rewards : List Float32) : Prop := 2 ≤ rewards.length ∧ uniform rewards = false

instance (rewards : List Float32) : Decidable (HasSpread rewards) :=
  inferInstanceAs (Decidable (_ ∧ _))

/-- The filter's test is a test for spread. -/
theorem groupHasSignal_iff {rollouts : List Rollout} {rewards : List Float32} {mask : Bool}
    {penalty : Option OverlongPenalty} {lossDenominator : ℕ} :
    groupHasSignal rollouts rewards mask penalty lossDenominator = true ↔
      HasSpread (signalRewards rollouts rewards mask penalty lossDenominator) := by
  unfold groupHasSignal HasSpread
  match signalRewards rollouts rewards mask penalty lossDenominator with
  | [] => simp
  | [_] => simp
  | first :: second :: rest =>
    rw [uniform_iff, Bool.not_eq_true']
    exact ⟨fun h => ⟨by simp, h⟩, And.right⟩

@[simp] theorem meanStd_count (values : List Float32) : (meanStd values).2.2 = values.length := by
  unfold meanStd
  by_cases h : values.length = 0 <;> simp [h]

/-! ### The pass over the groups -/

theorem killAll_getD (indices : List ℕ) (live : List Bool) (j : ℕ) :
    (killAll live indices).getD j false = (live.getD j false && decide (j ∉ indices)) := by
  induction indices generalizing live with
  | nil => simp [killAll]
  | cons i rest ih =>
    have hstep : killAll live (i :: rest) = killAll (live.set i false) rest := rfl
    rw [hstep, ih]
    by_cases hij : i = j
    · subst hij
      by_cases hlen : i < live.length <;> simp [getD_eq_getElem?_getD, hlen]
    · simp [getD_eq_getElem?_getD, getElem?_set_ne hij, Ne.symm hij]

theorem liveMembers_congr {rewards : List Float32} {live live' : List Bool} {indices : List ℕ}
    (h : ∀ i ∈ indices, live'.getD i false = live.getD i false) :
    liveMembers rewards live' indices = liveMembers rewards live indices := by
  unfold liveMembers
  rw [filter_congr h]

variable {rewards : List Float32} {baseline : AdvantageBaseline}

/-- One group keeps its live members when they have a spread, and is marked dead otherwise. -/
theorem centerGroup_live {acc acc' : Centering} {indices : List ℕ}
    (h : centerGroup rewards baseline acc indices = .ok acc') :
    acc'.live = if HasSpread (liveMembers rewards acc.live indices) then acc.live
      else killAll acc.live indices := by
  unfold centerGroup at h
  simp only [meanStd_count] at h
  split at h
  · next hdead =>
    have hno : ¬HasSpread (liveMembers rewards acc.live indices) := by
      rintro ⟨hlen, huniform⟩
      rcases hdead with hfew | huni
      · omega
      · simp [huniform] at huni
    rw [if_neg hno]
    cases h
    rfl
  · next hlive =>
    have hyes : HasSpread (liveMembers rewards acc.live indices) := by
      obtain ⟨hmany, hdiffer⟩ := not_or.mp hlive
      exact ⟨by omega, by simpa using hdiffer⟩
    rw [if_pos hyes]
    cases hfold : indices.foldlM (centerMember rewards acc.live _ _) acc.advantages with
    | error e => rw [hfold] at h; cases h
    | ok advantages => rw [hfold] at h; cases h; rfl

/-- The pass over disjoint groups decides each of them on the flags it was given. -/
theorem centerGroups_live {groups : List (List ℕ)} {acc acc' : Centering}
    (hdisjoint : groups.Pairwise List.Disjoint)
    (h : groups.foldlM (centerGroup rewards baseline) acc = .ok acc') :
    (∀ indices ∈ groups, ∀ i ∈ indices, acc'.live.getD i false =
      (acc.live.getD i false && decide (HasSpread (liveMembers rewards acc.live indices)))) ∧
    ∀ j, (∀ indices ∈ groups, j ∉ indices) → acc'.live.getD j false = acc.live.getD j false := by
  induction groups generalizing acc with
  | nil =>
    cases h
    exact ⟨fun _ h => absurd h not_mem_nil, fun _ _ => rfl⟩
  | cons indices rest ih =>
    rw [foldlM_cons] at h
    cases hstep : centerGroup rewards baseline acc indices with
    | error e => rw [hstep] at h; cases h
    | ok mid =>
      rw [hstep] at h
      obtain ⟨hhead, hrest⟩ := pairwise_cons.mp hdisjoint
      obtain ⟨hin, hout⟩ := ih hrest h
      have hmid := centerGroup_live hstep
      -- the group's own step changes no flag outside it
      have hother : ∀ j, j ∉ indices → mid.live.getD j false = acc.live.getD j false := by
        intro j hj
        rw [hmid]
        split
        · rfl
        · rw [killAll_getD]; simp [hj]
      refine ⟨fun is his i hi => ?_, fun j hj => ?_⟩
      · rcases mem_cons.mp his with rfl | his
        · rw [hout i fun js hjs hmem => hhead js hjs hi hmem, hmid]
          split
          · next hspread => simp [hspread]
          · next hspread => rw [killAll_getD]; simp [hi, hspread]
        · have hkeep : ∀ j ∈ is, mid.live.getD j false = acc.live.getD j false :=
            fun j hj => hother j fun hmem => hhead is his hmem hj
          rw [hin is his i hi, hkeep i hi, liveMembers_congr hkeep]
      · rw [hout j fun js hjs => hj js (mem_cons_of_mem _ hjs),
          hother j (hj indices mem_cons_self)]

/-! ### The groups of a batch -/

private theorem entryPush_new {groups : List (ℕ × List ℕ)} {id index : ℕ}
    (h : ∀ entry ∈ groups, entry.1 < id) :
    entryPush groups id index = groups ++ [(id, [index])] := by
  induction groups with
  | nil => rfl
  | cons entry rest ih =>
    have hlt : entry.1 < id := h entry mem_cons_self
    rw [entryPush, if_neg (by omega), if_neg (by omega),
      ih fun e he => h e (mem_cons_of_mem _ he)]
    rfl

private theorem entryPush_last {groups : List (ℕ × List ℕ)} {id index : ℕ} {indices : List ℕ}
    (h : ∀ entry ∈ groups, entry.1 < id) :
    entryPush (groups ++ [(id, indices)]) id index = groups ++ [(id, indices ++ [index])] := by
  induction groups with
  | nil => simp [entryPush]
  | cons entry rest ih =>
    have hlt : entry.1 < id := h entry mem_cons_self
    rw [cons_append, entryPush, if_neg (by omega), if_neg (by omega),
      ih fun e he => h e (mem_cons_of_mem _ he)]
    rfl

private theorem foldl_entryPush {groups : List (ℕ × List ℕ)} {id : ℕ} {indices : List ℕ}
    (h : ∀ entry ∈ groups, entry.1 < id) (count start : ℕ) :
    ((List.replicate count id).zipIdx start).foldl
        (fun groups entry => entryPush groups entry.1 entry.2) (groups ++ [(id, indices)]) =
      groups ++ [(id, indices ++ List.range' start count)] := by
  induction count generalizing indices start with
  | zero => simp
  | succ count ih =>
    rw [replicate_succ, zipIdx_cons, foldl_cons, entryPush_last h, ih,
      range'_succ, append_assoc, singleton_append]

private theorem length_ids (size n : ℕ) :
    ((List.range n).flatMap fun g => List.replicate size g).length = n * size := by
  induction n with
  | zero => simp
  | succ n ih => simp [range_succ, ih, Nat.succ_mul]

/-- The slots of consecutive groups of one size, as the centering finds them. -/
theorem groupsOf_ids {size : ℕ} (hsize : 0 < size) (n : ℕ) :
    groupsOf ((List.range n).flatMap fun g => List.replicate size g) =
      (List.range n).map fun g => (g, List.range' (g * size) size) := by
  induction n with
  | zero => rfl
  | succ n ih =>
    have hkeys : ∀ entry ∈ (List.range n).map fun g => (g, List.range' (g * size) size),
        entry.1 < n := by simp
    obtain ⟨count, rfl⟩ : ∃ count, size = count + 1 := ⟨size - 1, by omega⟩
    unfold groupsOf at ih ⊢
    rw [range_succ, flatMap_append, zipIdx_append, foldl_append, ih,
      flatMap_singleton, length_ids, replicate_succ, zipIdx_cons, foldl_cons,
      entryPush_new hkeys, foldl_entryPush hkeys, map_append]
    simp [range'_succ]

private theorem disjoint_blocks (size n : ℕ) :
    (((List.range n).map fun g => (g, List.range' (g * size) size)).map Prod.snd).Pairwise
      List.Disjoint := by
  rw [map_map, pairwise_map]
  refine nodup_range.imp_of_mem fun {g g'} _ _ hne => ?_
  intro i hi hi'
  simp only [Function.comp_apply, mem_range'_1] at hi hi'
  rcases Nat.lt_or_gt_of_ne hne with hlt | hlt
  · have := Nat.mul_le_mul_right size (Nat.succ_le_of_lt hlt)
    rw [Nat.succ_mul] at this
    omega
  · have := Nat.mul_le_mul_right size (Nat.succ_le_of_lt hlt)
    rw [Nat.succ_mul] at this
    omega

/-- What the centering leaves live of group `g`: the flags it was given when the group's live
rewards have a spread, nothing otherwise. -/
theorem groupAdvantages_live {size n : ℕ} {live live' : List Bool} {advantages : List Float32}
    {diagnostics : GroupDiagnostics} (hsize : 0 < size)
    (h : groupAdvantages rewards ((List.range n).flatMap fun g => List.replicate size g) live
      baseline = .ok (advantages, live', diagnostics)) {g m : ℕ} (hg : g < n) (hm : m < size) :
    live'.getD (g * size + m) false = (live.getD (g * size + m) false &&
      decide (HasSpread (liveMembers rewards live (List.range' (g * size) size)))) := by
  unfold groupAdvantages at h
  rw [groupsOf_ids hsize] at h
  split at h
  · cases h
  · dsimp only at h
    cases hfold : ((((List.range n).map fun g => (g, List.range' (g * size) size)).map
        Prod.snd).foldlM (centerGroup rewards baseline)
        ⟨List.replicate rewards.length 0, live, 0, 0, 0, 0⟩ : Except Error Centering) with
    | error e => rw [hfold] at h; cases h
    | ok acc =>
      rw [hfold] at h
      have hlive : acc.live = live' := by cases h; rfl
      rw [← hlive]
      refine (centerGroups_live (disjoint_blocks size n) hfold).1 _ ?_ _ ?_
      · exact mem_map.mpr ⟨(g, _), mem_map.mpr ⟨g, mem_range.mpr hg, rfl⟩, rfl⟩
      · exact mem_range'_1.mpr ⟨by omega, by omega⟩

/-! ### One test -/

section Gathered

variable {config : GrpoConfig} {lossDenominator : ℕ} {groups : List SpareGroup} {slots : Slots}
  {group : SpareGroup} {i m : ℕ}

/-- Whether truncation masking leaves a rollout in its group. -/
def unmasked (config : GrpoConfig) (lossDenominator : ℕ) (rollout : Rollout) : Bool :=
  !(config.maskTruncated && isTruncated rollout.completionLen lossDenominator)

/-- The centered reward of a slot is its member's, shaped by its own completion. -/
theorem shapedRewards_slot (hgathers : Gathers config.groupSize groups slots)
    (hsized : ∀ g ∈ groups, g.Sized config.groupSize) (hg : groups[i]? = some group)
    (hm : m < config.groupSize) {rollout : Rollout} (hr : group.rollouts[m]? = some rollout)
    {reward : Float32} (hreward : group.rewards[m]? = some reward) :
    (shapedRewards config lossDenominator slots).getD (i * config.groupSize + m) 0 =
      shapeReward config.overlongPenalty lossDenominator rollout reward := by
  obtain ⟨before, after, hbefore, hafter, hsame⟩ := hgathers.rollout hsized hg hm
  obtain rfl : before = rollout := Option.some.inj (hbefore.symm.trans hr)
  have hslot : slots.rewards[i * config.groupSize + m]? = some reward :=
    (hgathers.reward hsized hg hm).trans hreward
  unfold shapedRewards shapeReward
  cases config.overlongPenalty with
  | none => simp [getD_eq_getElem?_getD, hslot]
  | some penalty =>
    have hlen : slots.rewards.length = slots.rollouts.length := by
      have h := hgathers.lengths hsized
      exact h.2.2.2.2.1.trans h.1.symm
    simp [getD_eq_getElem?_getD, zipUpdate_eq_zipWith _ hlen, getElem?_zipWith, hslot,
      hafter, hsame.completionLen]

/-- The live flag of a slot before the centering: its member counts and its group was judged. -/
theorem liveFlags_slot (hgathers : Gathers config.groupSize groups slots)
    (hsized : ∀ g ∈ groups, g.Sized config.groupSize) (hg : groups[i]? = some group)
    (hm : m < config.groupSize) {rollout : Rollout} (hr : group.rollouts[m]? = some rollout) :
    (liveFlags config lossDenominator slots).getD (i * config.groupSize + m) false =
      (unmasked config lossDenominator rollout && group.judged) := by
  obtain ⟨before, after, hbefore, hafter, hsame⟩ := hgathers.rollout hsized hg hm
  obtain rfl : before = rollout := Option.some.inj (hbefore.symm.trans hr)
  have hlens := hgathers.lengths hsized
  have hjudged := hgathers.judged hg hm
  have hpos : i * config.groupSize + m < slots.rollouts.length :=
    (List.getElem?_eq_some_iff.mp hafter).1
  have hmasked : (if config.maskTruncated then
      zipUpdate (fun _ r => !isTruncated r.completionLen lossDenominator)
        (List.replicate slots.rollouts.length true) slots.rollouts
      else List.replicate slots.rollouts.length true)[i * config.groupSize + m]? =
      some (unmasked config lossDenominator before) := by
    unfold unmasked
    cases config.maskTruncated with
    | false => simp [hpos]
    | true =>
      rw [if_pos rfl, zipUpdate_eq_zipWith _ length_replicate, getElem?_zipWith, hafter]
      simp [hpos, hsame.completionLen]
  have hlen : (if config.maskTruncated then
      zipUpdate (fun _ r => !isTruncated r.completionLen lossDenominator)
        (List.replicate slots.rollouts.length true) slots.rollouts
      else List.replicate slots.rollouts.length true).length = slots.judgedGroups.length := by
    rw [hlens.2.2.2.2.2.2.2.2, ← hlens.1]
    split
    · rw [zipUpdate_eq_zipWith _ length_replicate]; simp
    · simp
  unfold liveFlags
  simp only [zipUpdate_eq_zipWith _ hlen, getD_eq_getElem?_getD, getElem?_zipWith,
    hmasked, hjudged, Option.getD_some]

private theorem filter_map_eq (l : List ℕ) (p : ℕ → Bool) (f : ℕ → Float32) :
    (l.filter p).map f = l.filterMap fun x => if p x then some (f x) else none := by
  induction l with
  | nil => rfl
  | cons a l ih => by_cases h : p a <;> simp [h, ih]

/-- The live members the centering finds in a judged group are the ones the filter saw. -/
theorem liveMembers_slots (hgathers : Gathers config.groupSize groups slots)
    (hsized : ∀ g ∈ groups, g.Sized config.groupSize) (hg : groups[i]? = some group) :
    liveMembers (shapedRewards config lossDenominator slots)
        (liveFlags config lossDenominator slots)
        (List.range' (i * config.groupSize) config.groupSize) =
      if group.judged then signalRewards group.rollouts group.rewards config.maskTruncated
        config.overlongPenalty lossDenominator
      else [] := by
  have hgroup := hsized group (mem_of_getElem? hg)
  -- both sides run over the members of the group, one by its slots, one by its own vectors
  have hzip : group.rollouts.zip group.rewards = (List.range config.groupSize).map fun m =>
      (group.rollouts.getD m ⟨[], [], []⟩, group.rewards.getD m 0) := by
    refine ext_getElem (by simp [hgroup.rollouts, hgroup.rewards]) fun m hm hm' => ?_
    have hsize : m < config.groupSize := by simpa using hm'
    simp [getD_eq_getElem?_getD, hgroup.rollouts, hgroup.rewards, hsize]
  unfold liveMembers signalRewards
  rw [filter_map_eq, range'_eq_map_range, filterMap_map, hzip, filterMap_map]
  have hmember : ∀ m ∈ List.range config.groupSize,
      (if (liveFlags config lossDenominator slots).getD (i * config.groupSize + m) false then
        some ((shapedRewards config lossDenominator slots).getD (i * config.groupSize + m) 0)
      else none) =
      if group.judged then
        (if config.maskTruncated && isTruncated
            (group.rollouts.getD m ⟨[], [], []⟩).completionLen lossDenominator then none
          else some (shapeReward config.overlongPenalty lossDenominator
            (group.rollouts.getD m ⟨[], [], []⟩) (group.rewards.getD m 0)))
      else none := by
    intro m hm
    have hm := mem_range.mp hm
    have hr : group.rollouts[m]? = some (group.rollouts.getD m ⟨[], [], []⟩) := by
      simp [getD_eq_getElem?_getD, hgroup.rollouts, hm]
    have hreward : group.rewards[m]? = some (group.rewards.getD m 0) := by
      simp [getD_eq_getElem?_getD, hgroup.rewards, hm]
    rw [liveFlags_slot hgathers hsized hg hm hr, shapedRewards_slot hgathers hsized hg hm hr hreward]
    generalize group.rollouts.getD m ⟨[], [], []⟩ = rollout
    unfold unmasked
    cases group.judged <;>
      cases config.maskTruncated && isTruncated rollout.completionLen lossDenominator <;> rfl
  cases hjudged : group.judged with
  | true =>
    rw [if_pos rfl]
    refine filterMap_congr fun m hm => ?_
    have h := hmember m hm
    rw [hjudged, if_pos rfl] at h
    exact h
  | false =>
    rw [if_neg (by simp)]
    refine filterMap_eq_nil_iff.mpr fun m hm => ?_
    have h := hmember m hm
    rw [hjudged, if_neg Bool.false_ne_true] at h
    exact h

/-- **One test**: a group of the batch leaves the centering with its unmasked members live when
dynamic sampling would have kept it, and fully dead when it would have been rejected. -/
theorem centerBatch_live {advantages : List Float32} {live : List Bool}
    {diagnostics : GroupDiagnostics} (hsize : 0 < config.groupSize)
    (hgathers : Gathers config.groupSize groups slots)
    (hsized : ∀ g ∈ groups, g.Sized config.groupSize)
    (hcount : groups.length = config.promptsPerUpdate)
    (h : centerBatch config lossDenominator slots = .ok (advantages, live, diagnostics))
    (hg : groups[i]? = some group) (hm : m < config.groupSize) {rollout : Rollout}
    (hr : group.rollouts[m]? = some rollout) :
    live.getD (i * config.groupSize + m) false =
      (unmasked config lossDenominator rollout && informative config lossDenominator group) := by
  have hi : i < config.promptsPerUpdate := hcount ▸ (List.getElem?_eq_some_iff.mp hg).1
  rw [groupAdvantages_live hsize h hi hm, liveFlags_slot hgathers hsized hg hm hr,
    liveMembers_slots hgathers hsized hg, informative]
  cases group.judged with
  | false => simp
  | true =>
    rw [if_pos rfl, Bool.true_and, Bool.and_true]
    congr 1
    rw [Bool.eq_iff_iff, decide_eq_true_iff]
    exact groupHasSignal_iff.symm

end Gathered

end Retrograd.Training
