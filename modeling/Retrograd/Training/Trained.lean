import Retrograd.Training.Epoch

/-!
# Every live rollout is trained once, with its own data

An epoch **performs** a plan: the scheduler is advanced once for every dead slot, and every live slot
is a member of exactly one chunk, under its own advantages and reference row.
-/

namespace Retrograd.Training

open Logic List

/-! ### The plan of an epoch -/

/-- One thing an epoch does. -/
inductive EpochEvent where
  /-- The scheduler advances by the steps of one row. -/
  | advance
  /-- A chunk is trained as one transaction. -/
  | chunk (members : List ChunkMember)

section Perform

variable {σ : Type} (trainer : Trainer σ) (layout : RowLayout) (params : GrpoStepParams)

/-- Does one thing; the flag is false when a callback asked to stop. -/
def EpochEvent.act : EpochEvent → EpochState → OutM σ (Bool × EpochState)
  | advance, state => do
    let globalStep ← ask (trainer.advanceSchedulerSteps layout.stepsPerRow)
    let state := { state with metrics := { state.metrics with globalStep } }
    let keep ← ask (trainer.onProgress state.metrics)
    pure (keep, state)
  | chunk members, state => do
    let (metrics, chunkStats, keepTraining) ← grpoChunkStep trainer layout params members
      state.reuseBehaviorLogprobs
    pure (keepTraining, ⟨false, metrics, state.stats.add chunkStats⟩)

/-- Does one thing after another, until a callback asks to stop. -/
def perform : List EpochEvent → EpochState → OutM σ (Bool × EpochState)
  | [], state => pure (true, state)
  | event :: events, state => do
    let (keep, state) ← event.act trainer layout params state
    if keep then perform events state else pure (false, state)

variable {trainer layout params}

theorem perform_append (events events' : List EpochEvent) (state : EpochState) :
    perform trainer layout params (events ++ events') state =
      (perform trainer layout params events state >>= fun (keep, state) =>
        if keep then perform trainer layout params events' state else pure (false, state)) := by
  induction events generalizing state with
  | nil => simp [perform]
  | cons event events ih =>
    rw [cons_append, perform, perform, bind_assoc]
    congr 1
    funext ⟨keep, state⟩
    cases keep with
    | true => simp [ih]
    | false => simp

end Perform

namespace EpochBatch

variable (batch : EpochBatch)

/-- Whether a slot has a reference position. -/
def live (index : ℕ) : Bool := batch.referencePositions[index]?.join.isSome

/-- Every list has an entry for every slot, and the reference rows, when there are any, one for every
position. -/
structure Aligned : Prop where
  groupIds : batch.groupIds.length = batch.rollouts.length
  advantages : batch.advantages.length = batch.rollouts.length
  positions : batch.referencePositions.length = batch.rollouts.length
  evals : batch.rolloutEvals.length = batch.rollouts.length
  rows : batch.referenceRows ≠ [] → ∀ index position : ℕ,
    batch.referencePositions[index]? = some (some position) → position < batch.referenceRows.length

/-- `member` is what the batch holds for slot `index`. -/
structure Carries (index : ℕ) (member : ChunkMember) : Prop where
  rollout : batch.rollouts[index]? = some member.rollout
  groupId : batch.groupIds[index]? = some member.groupId
  advantage : batch.advantages[index]? = some member.advantage
  tokenAdvantages : member.tokenAdvantages = batch.tokenAdvantages[index]?.join
  /-- No reference rows, no reference; else the row at the slot's own position. -/
  reference : if batch.referenceRows = [] then member.referenceLogprobs = []
    else ∃ position, batch.referencePositions[index]? = some (some position) ∧
      batch.referenceRows[position]? = some member.referenceLogprobs

variable {batch}

theorem indexed_ok {α : Type} {l : List α} {i : ℕ} (h : i < l.length) :
    ∃ a, indexed l i = .ok a ∧ l[i]? = some a := by
  refine ⟨l[i], ?_, getElem?_eq_getElem h⟩
  rw [indexed, getElem?_eq_getElem h]

variable {index : ℕ}

theorem live_iff :
    batch.live index ↔ ∃ position, batch.referencePositions[index]? = some (some position) := by
  rw [live, Option.isSome_iff_exists]
  simp only [Option.join_eq_some_iff]

theorem Aligned.reference (haligned : batch.Aligned) (hlive : batch.live index) :
    ∃ row, batch.reference index = .ok row ∧ if batch.referenceRows = [] then row = []
      else ∃ position, batch.referencePositions[index]? = some (some position) ∧
        batch.referenceRows[position]? = some row := by
  rw [EpochBatch.reference]
  by_cases hrows : batch.referenceRows = []
  · exact ⟨[], if_pos (List.isEmpty_iff.mpr hrows), (if_pos hrows).symm ▸ rfl⟩
  · obtain ⟨position, hposition⟩ := live_iff.mp hlive
    obtain ⟨row, hrow, hrow'⟩ := indexed_ok (haligned.rows hrows index position hposition)
    refine ⟨row, ?_, (if_neg hrows).symm ▸ ⟨position, hposition, hrow'⟩⟩
    rw [if_neg (by simpa using hrows), indexed, hposition]
    exact hrow

/-- The member of a live slot is what the batch holds for it. -/
theorem Aligned.member (haligned : batch.Aligned) (hindex : index < batch.rollouts.length)
    (hlive : batch.live index) : ∃ member, batch.member index = .ok member ∧
      batch.Carries index member := by
  obtain ⟨groupId, hgroup, hgroup'⟩ := indexed_ok (haligned.groupIds ▸ hindex)
  obtain ⟨rollout, hrollout, hrollout'⟩ := indexed_ok hindex
  obtain ⟨advantage, hadvantage, hadvantage'⟩ := indexed_ok (haligned.advantages ▸ hindex)
  obtain ⟨row, hrow, hrow'⟩ := haligned.reference hlive
  refine ⟨⟨groupId, rollout, advantage, batch.tokenAdvantages[index]?.join, row⟩, ?_, hrollout',
    hgroup', hadvantage', rfl, hrow'⟩
  rw [EpochBatch.member, hgroup, hrollout, hadvantage, hrow]
  rfl

end EpochBatch

/-! ### Chunks by period -/

/-- The evaluations of some slots together. -/
def evalsOf (evals : List ℕ) (chunk : List ℕ) : ℕ := (chunk.map fun index => evals.getD index 0).sum

theorem chunkLoop_ok {evals indices : List ℕ} {period : ℕ} (hevals : ∀ i ∈ indices, i < evals.length)
    {rest : List ℕ} {position start : ℕ} (hrest : indices.drop position = rest)
    (hposition : position ≤ indices.length) (hstart : start ≤ position)
    (hbudget : start + 1 < position →
      evalsOf evals ((indices.drop start).take (position - start)) ≤ period) :
    ∃ ranges, chunkLoop evals period rest position start
        (evalsOf evals ((indices.drop start).take (position - start))) = .ok ranges ∧
      Tiles start indices.length ranges ∧
      ∀ range ∈ ranges, range.1 + 1 < range.2 →
        evalsOf evals ((indices.drop range.1).take (range.2 - range.1)) ≤ period := by
  induction rest generalizing position start with
  | nil =>
    have hlength : position = indices.length := by
      have := drop_eq_nil_iff.mp hrest
      omega
    refine ⟨_, rfl, ?_, ?_⟩
    · split_ifs with hlt
      · exact .cons hlt (hlength ▸ .nil _)
      · rw [← hlength, show start = position by omega]
        exact .nil _
    · intro range hrange hlong
      split_ifs at hrange
      · obtain rfl := mem_singleton.mp hrange
        exact hbudget hlong
      · cases hrange
  | cons index rest ih =>
    have hlt : position < indices.length := by
      by_contra hge
      rw [drop_eq_nil_of_le (by omega)] at hrest
      cases hrest
    rw [drop_eq_getElem_cons hlt] at hrest
    obtain ⟨hindex, hnext⟩ := cons.inj hrest
    have hmem : index ∈ indices := hindex ▸ getElem_mem hlt
    have hcost : indexed evals index = .ok (evals.getD index 0) := by
      rw [indexed, getElem?_eq_getElem (hevals index hmem),
        getD_eq_getElem _ _ (hevals index hmem)]
    have hgrown : (indices.drop start).take (position + 1 - start) =
        (indices.drop start).take (position - start) ++ [index] := by
      rw [show position + 1 - start = position - start + 1 by omega, take_add_one,
        getElem?_drop, show start + (position - start) = position by omega,
        getElem?_eq_getElem hlt, hindex]
      rfl
    have hsum : evalsOf evals ((indices.drop start).take (position + 1 - start)) =
        evalsOf evals ((indices.drop start).take (position - start)) + evals.getD index 0 := by
      simp [evalsOf, hgrown]
    rw [chunkLoop, hcost]
    change ∃ ranges, (if start < position ∧ period < _ then _ else _) = Except.ok ranges ∧ _
    split_ifs with hfull
    · -- the chunk is closed, and the rollout starts the next one
      have hsingle : (indices.drop position).take (position + 1 - position) = [index] := by
        rw [drop_eq_getElem_cons hlt, hindex, Nat.add_sub_cancel_left]
        rfl
      have hone : evalsOf evals ((indices.drop position).take (position + 1 - position)) =
          evals.getD index 0 := by
        rw [hsingle, evalsOf]
        simp
      obtain ⟨ranges, hloop, htiles, hcosts⟩ :=
        ih hnext hlt (Nat.le_succ _)
          (fun hlong => absurd hlong (lt_irrefl _))
      rw [hone] at hloop
      refine ⟨(start, position) :: ranges, ?_, .cons hfull.1 htiles, ?_⟩
      · rw [hloop]
        rfl
      · intro range hrange hlong
        rcases mem_cons.mp hrange with rfl | hrange
        · exact hbudget hlong
        · exact hcosts range hrange hlong
    · obtain ⟨ranges, hloop, htiles, hcosts⟩ :=
        ih hnext hlt (Nat.le_succ_of_le hstart) (fun hlong => by
          rw [hsum]
          have : start < position := by omega
          exact not_lt.mp fun hover => hfull ⟨this, hover⟩)
      rw [hsum] at hloop
      exact ⟨ranges, hloop, htiles, hcosts⟩

/-- Chunks by period are the order, cut, and only a single rollout costs more than a period. -/
theorem chunkByPeriod_ok {indices evals : List ℕ} (period : ℕ)
    (hevals : ∀ i ∈ indices, i < evals.length) :
    ∃ ranges, chunkByPeriod indices evals period = .ok ranges ∧ Tiles 0 indices.length ranges ∧
      ∀ range ∈ ranges, range.1 + 1 < range.2 →
        evalsOf evals ((indices.drop range.1).take (range.2 - range.1)) ≤ period :=
  chunkLoop_ok hevals rfl (Nat.zero_le _) (Nat.le_refl _)
    (fun hlong => absurd hlong (by omega))

/-! ### Chunks by group -/

/-- The keys of an ordered map. -/
def Ordered (groups : List (ℕ × List ℕ)) : Prop := groups.Pairwise fun entry later => entry.1 < later.1

variable {groups : List (ℕ × List ℕ)}

private theorem lookup_of_lt {id : ℕ} (h : ∀ entry ∈ groups, id < entry.1) :
    groups.lookup id = none := by
  rw [lookup_eq_none_iff]
  intro entry hentry
  simpa using (h entry hentry).ne

theorem mem_entryPush {id index : ℕ} {entry : ℕ × List ℕ} (h : entry ∈ entryPush groups id index) :
    entry.1 = id ∨ entry ∈ groups := by
  induction groups with
  | nil => exact .inl (congrArg Prod.fst (mem_singleton.mp h))
  | cons group groups ih =>
    rw [entryPush] at h
    split_ifs at h with hlt heq
    · rcases mem_cons.mp h with rfl | h
      · exact .inl rfl
      · exact .inr h
    · rcases mem_cons.mp h with rfl | h
      · exact .inl heq.symm
      · exact .inr (.tail _ h)
    · rcases mem_cons.mp h with rfl | h
      · exact .inr (.head _)
      · exact (ih h).imp_right (.tail _)

theorem Ordered.entryPush (h : Ordered groups) (id index : ℕ) :
    Ordered (entryPush groups id index) := by
  induction h with
  | nil => exact .cons (by simp) .nil
  | @cons group groups hfirst hrest ih =>
    rw [Training.entryPush]
    split_ifs with hlt heq
    · refine .cons (fun entry hentry => ?_) (.cons hfirst hrest)
      rcases mem_cons.mp hentry with rfl | hentry
      · exact hlt
      · exact hlt.trans (hfirst entry hentry)
    · exact .cons hfirst hrest
    · refine .cons (fun entry hentry => ?_) ih
      rcases mem_entryPush hentry with hid | hentry
      · omega
      · exact hfirst entry hentry

/-- A pushed member goes to the end of its own group. -/
theorem lookup_entryPush (h : Ordered groups) (id index key : ℕ) :
    (entryPush groups id index).lookup key =
      if key = id then some ((groups.lookup id).getD [] ++ [index]) else groups.lookup key := by
  induction h with
  | nil =>
    by_cases hkey : key = id
    · simp [entryPush, hkey]
    · simp [entryPush, List.lookup_cons, hkey, beq_false_of_ne hkey]
  | @cons group groups hfirst hrest ih =>
    obtain ⟨g, members⟩ := group
    rw [entryPush]
    by_cases hlt : id < g
    · have hnone : ((g, members) :: groups).lookup id = none := lookup_of_lt fun entry hentry => by
        rcases mem_cons.mp hentry with rfl | hentry
        · exact hlt
        · exact hlt.trans (hfirst entry hentry)
      rw [if_pos hlt, hnone, List.lookup_cons]
      by_cases hkey : key = id
      · simp [hkey]
      · simp [hkey, beq_false_of_ne hkey]
    · rw [if_neg hlt]
      by_cases heq : id = g
      · subst heq
        rw [if_pos rfl, List.lookup_cons, List.lookup_cons, List.lookup_cons]
        by_cases hkey : key = id
        · simp [hkey]
        · simp [hkey, beq_false_of_ne hkey]
      · rw [if_neg heq, List.lookup_cons, List.lookup_cons, List.lookup_cons, ih,
          beq_false_of_ne heq]
        by_cases hkey : key = g
        · have hne : ¬ g = id := fun h => heq h.symm
          simp [hkey, hne]
        · simp [beq_false_of_ne hkey]

variable {groupIds live : List ℕ}

/-- The slots of one group, in their order. -/
def groupOf (groupIds : List ℕ) (order : List ℕ) (id : ℕ) : List ℕ :=
  order.filter fun index => groupIds[index]? = some id

/-- What the loop has established about the slots seen so far. -/
structure Grouped (groupIds seen : List ℕ) (byGroup : List (ℕ × List ℕ)) (groupOrder : List ℕ) :
    Prop where
  ordered : Ordered byGroup
  lookup (id : ℕ) : byGroup.lookup id =
    if groupOf groupIds seen id = [] then none else some (groupOf groupIds seen id)
  nodup : groupOrder.Nodup
  mem (id : ℕ) : id ∈ groupOrder ↔ groupOf groupIds seen id ≠ []

theorem groupOf_snoc (seen : List ℕ) {index id : ℕ} (hid : groupIds[index]? = some id) (key : ℕ) :
    groupOf groupIds (seen ++ [index]) key =
      groupOf groupIds seen key ++ if key = id then [index] else [] := by
  rw [groupOf, filter_append, ← groupOf]
  congr 1
  by_cases hkey : key = id
  · simp [hid, hkey]
  · have hne : ¬ id = key := fun h => hkey h.symm
    simp [hid, hkey, hne]

variable {byGroup : List (ℕ × List ℕ)} {groupOrder : List ℕ}

/-- One more slot joins its group; a group that is new comes last. -/
theorem Grouped.push {seen : List ℕ} (h : Grouped groupIds seen byGroup groupOrder) {index id : ℕ}
    (hid : groupIds[index]? = some id) :
    Grouped groupIds (seen ++ [index]) (entryPush byGroup id index)
      (if (byGroup.lookup id).isSome then groupOrder else groupOrder ++ [id]) := by
  have hsome : (byGroup.lookup id).isSome ↔ groupOf groupIds seen id ≠ [] := by
    rw [h.lookup id]
    split_ifs with hempty <;> simp [hempty]
  refine ⟨h.ordered.entryPush id index, fun key => ?_, ?_, fun key => ?_⟩
  · rw [lookup_entryPush h.ordered, groupOf_snoc seen hid]
    by_cases hkey : key = id
    · subst hkey
      rw [if_pos rfl, if_pos rfl, if_neg (by simp), h.lookup key]
      split_ifs with hempty <;> simp [hempty]
    · rw [if_neg hkey, if_neg hkey, append_nil, h.lookup key]
  · split_ifs with hseen
    · exact h.nodup
    · have hnew : id ∉ groupOrder := fun hmem => hseen (hsome.mpr ((h.mem id).mp hmem))
      exact nodup_append.mpr ⟨h.nodup, nodup_singleton id, fun a ha b hb => by
        obtain rfl := mem_singleton.mp hb
        exact fun heq => hnew (heq ▸ ha)⟩
  · rw [groupOf_snoc seen hid]
    by_cases hkey : key = id
    · subst hkey
      rw [if_pos rfl]
      refine ⟨fun _ => by simp, fun _ => ?_⟩
      split_ifs with hseen
      · exact (h.mem key).mpr (hsome.mp hseen)
      · simp
    · rw [if_neg hkey, append_nil, ← h.mem key]
      split_ifs with hseen
      · exact Iff.rfl
      · simp [hkey]

theorem groupLoop_ok {rollouts : ℕ} (hgroups : groupIds.length = rollouts) {rest seen : List ℕ}
    (hrest : ∀ i ∈ rest, i < rollouts) (h : Grouped groupIds seen byGroup groupOrder) :
    ∃ byGroup' groupOrder',
      groupLoop groupIds rollouts rest byGroup groupOrder = .ok (byGroup', groupOrder') ∧
      Grouped groupIds (seen ++ rest) byGroup' groupOrder' := by
  induction rest generalizing seen byGroup groupOrder with
  | nil => exact ⟨byGroup, groupOrder, rfl, by rwa [append_nil]⟩
  | cons index rest ih =>
    have hindex := hrest index (.head _)
    obtain ⟨id, hid, hid'⟩ := EpochBatch.indexed_ok (hgroups ▸ hindex : index < groupIds.length)
    obtain ⟨byGroup', groupOrder', hloop, hgrouped⟩ :=
      ih (fun i hi => hrest i (.tail _ hi)) (h.push hid')
    refine ⟨byGroup', groupOrder', ?_, by simpa using hgrouped⟩
    rw [groupLoop, if_neg (not_le.mpr hindex), hid]
    exact hloop

private theorem lookup_filter_ne (groups : List (ℕ × List ℕ)) {id key : ℕ} (hkey : key ≠ id) :
    (groups.filter fun entry => entry.1 != id).lookup key = groups.lookup key := by
  induction groups with
  | nil => rfl
  | cons entry groups ih =>
    obtain ⟨g, members⟩ := entry
    by_cases hg : g = id
    · subst hg
      rw [filter_cons_of_neg (by simp), ih, List.lookup_cons, beq_false_of_ne hkey]
    · rw [filter_cons_of_pos (by simpa using hg), List.lookup_cons, List.lookup_cons, ih]

theorem takeGroups_ok {members : ℕ → List ℕ} (hnodup : groupOrder.Nodup)
    (h : ∀ id ∈ groupOrder, byGroup.lookup id = some (members id)) :
    takeGroups groupOrder byGroup = .ok (groupOrder.map members) := by
  induction hnodup generalizing byGroup with
  | nil => rfl
  | @cons id groupOrder hid _ ih =>
    have hrest : takeGroups groupOrder (byGroup.filter fun entry => entry.1 != id) =
        .ok (groupOrder.map members) :=
      ih fun key hkey => by
        rw [lookup_filter_ne byGroup (hid key hkey).symm]
        exact h key (.tail _ hkey)
    rw [takeGroups, h id (.head _)]
    dsimp only
    rw [hrest]
    rfl

/-- Chunks by group: the live members of one group each, and every group that has some. -/
theorem groups_ok {rollouts : ℕ} (hgroups : groupIds.length = rollouts)
    (hlive : ∀ i ∈ live, i < rollouts) :
    ∃ byGroup ids, groupLoop groupIds rollouts live [] [] = .ok (byGroup, ids) ∧
      takeGroups ids byGroup = .ok (ids.map (groupOf groupIds live)) ∧ ids.Nodup ∧
      ∀ id, id ∈ ids ↔ groupOf groupIds live id ≠ [] := by
  have hstart : Grouped groupIds [] [] [] :=
    ⟨.nil, fun _ => rfl, .nil, fun id => by simp [groupOf]⟩
  obtain ⟨byGroup, ids, hloop, hgrouped⟩ := groupLoop_ok hgroups hlive hstart
  rw [nil_append] at hgrouped
  refine ⟨byGroup, ids, hloop, takeGroups_ok hgrouped.nodup fun id hid => ?_, hgrouped.nodup,
    hgrouped.mem⟩
  rw [hgrouped.lookup id, if_neg ((hgrouped.mem id).mp hid)]

/-- Groups together hold every slot once. -/
theorem groups_perm {ids : List ℕ} (hlive : live.Nodup) (hids : ids.Nodup)
    (hgroups : ∀ i ∈ live, i < groupIds.length)
    (hmem : ∀ id, id ∈ ids ↔ groupOf groupIds live id ≠ []) :
    (ids.map (groupOf groupIds live)).flatten.Perm live := by
  refine (perm_ext_iff_of_nodup ?_ hlive).mpr fun index => ?_
  · refine nodup_flatten.mpr ⟨?_, ?_⟩
    · intro chunk hchunk
      obtain ⟨id, -, rfl⟩ := mem_map.mp hchunk
      exact hlive.filter _
    · refine List.Pairwise.map _ (fun id id' hne => ?_) hids
      intro index hindex hindex'
      have h := of_decide_eq_true (mem_filter.mp hindex).2
      have h' := of_decide_eq_true (mem_filter.mp hindex').2
      exact hne (Option.some.inj (h.symm.trans h'))
  · rw [mem_flatten]
    constructor
    · rintro ⟨chunk, hchunk, hindex⟩
      obtain ⟨id, -, rfl⟩ := mem_map.mp hchunk
      exact (mem_filter.mp hindex).1
    · intro hindex
      obtain ⟨id, -, hid⟩ := EpochBatch.indexed_ok (hgroups index hindex)
      have hin : index ∈ groupOf groupIds live id :=
        mem_filter.mpr ⟨hindex, decide_eq_true hid⟩
      exact ⟨_, mem_map.mpr ⟨id, (hmem id).mpr (ne_nil_of_mem hin), rfl⟩, hin⟩

/-- How the live slots of an epoch are chunked. -/
structure Chunked (layout : RowLayout) (groupIds evals live : List ℕ) (chunks : List (List ℕ)) :
    Prop where
  perm : chunks.flatten.Perm live
  ne_nil : ∀ chunk ∈ chunks, chunk ≠ []
  /-- By period: the order, cut, and only a single rollout costs more than a period. -/
  byPeriod : layout.sharedPrefixFanout = .off → chunks.flatten = live ∧
    ∀ chunk ∈ chunks, 1 < chunk.length → evalsOf evals chunk ≤ layout.accumulationPeriod
  /-- By group: the members of one group each, in their order. -/
  byGroup : layout.sharedPrefixFanout ≠ .off →
    ∃ ids : List ℕ, ids.Nodup ∧ chunks = ids.map (groupOf groupIds live)

theorem groupedOptimizerChunks_ok {rollouts : List Rollout} {evals : List ℕ} (layout : RowLayout)
    (hgroups : groupIds.length = rollouts.length) (hevals : evals.length = rollouts.length)
    (hlive : ∀ i ∈ live, i < rollouts.length) (hnodup : live.Nodup) :
    ∃ chunks, groupedOptimizerChunks live groupIds rollouts evals layout = .ok chunks ∧
      Chunked layout groupIds evals live chunks := by
  have haligned : ¬ (groupIds.length ≠ rollouts.length ∨ evals.length ≠ rollouts.length) := by
    simp [hgroups, hevals]
  rw [groupedOptimizerChunks, if_neg haligned]
  by_cases hoff : layout.sharedPrefixFanout = .off
  · obtain ⟨ranges, hranges, htiles, hcosts⟩ :=
      chunkByPeriod_ok layout.accumulationPeriod (hevals ▸ hlive)
    rw [if_pos hoff, hranges]
    have hflatten : (ranges.map fun range =>
        (live.drop range.1).take (range.2 - range.1)).flatten = live := by
      rw [← flatMap_def, htiles.flatMap_slices, drop_zero, Nat.sub_zero,
        take_length]
    have hlength (range : ℕ × ℕ) (hrange : range ∈ ranges) :
        ((live.drop range.1).take (range.2 - range.1)).length = range.2 - range.1 := by
      have hle := htiles.le_of_mem hrange
      rw [length_take, length_drop]
      omega
    refine ⟨_, rfl, .of_eq hflatten, fun chunk hchunk => ?_, fun _ => ⟨hflatten, ?_⟩,
      fun hon => absurd hoff hon⟩
    · obtain ⟨range, hrange, rfl⟩ := mem_map.mp hchunk
      have hlt := htiles.lt_of_mem hrange
      exact ne_nil_of_length_pos (by rw [hlength range hrange]; omega)
    · intro chunk hchunk hlong
      obtain ⟨range, hrange, rfl⟩ := mem_map.mp hchunk
      rw [hlength range hrange] at hlong
      exact hcosts range hrange (by omega)
  · obtain ⟨byGroup, ids, hloop, htake, hids, hmem⟩ := groups_ok hgroups hlive
    rw [if_neg hoff, hloop]
    refine ⟨ids.map (groupOf groupIds live), htake, groups_perm hnodup hids (hgroups ▸ hlive) hmem,
      fun chunk hchunk => ?_, fun h => absurd h hoff, fun _ => ⟨ids, hids, rfl⟩⟩
    obtain ⟨id, hid, rfl⟩ := mem_map.mp hchunk
    exact (hmem id).mp hid

/-! ### The epoch performs the plan -/

section Epoch

variable {σ : Type} {trainer : Trainer σ} {batch : EpochBatch} {layout : RowLayout}
  {params : GrpoStepParams}

theorem advanceDead_eq {order : List ℕ} (horder : ∀ i ∈ order, i < batch.referencePositions.length)
    (liveOrder : List ℕ) (state : EpochState) :
    advanceDead trainer batch layout order liveOrder state =
      (perform trainer layout params ((order.filter fun i => !batch.live i).map fun _ => .advance)
          state >>= fun (keep, state) =>
        pure (if keep then some (liveOrder ++ order.filter batch.live) else none, state)) := by
  induction order generalizing liveOrder state with
  | nil => simp [advanceDead, perform]
  | cons index order ih =>
    have hrest : ∀ i ∈ order, i < batch.referencePositions.length :=
      fun i hi => horder i (.tail _ hi)
    obtain ⟨position, hposition, hposition'⟩ := EpochBatch.indexed_ok (horder index (.head _))
    have hlive : batch.live index = position.isSome := by
      rw [EpochBatch.live, hposition']
      cases position <;> rfl
    rw [advanceDead, hposition]
    change (if position.isSome then _ else _) = _
    cases position with
    | some position =>
      rw [if_pos Option.isSome_some, ih hrest, filter_cons_of_neg (by simp [hlive]),
        filter_cons_of_pos (by simp [hlive])]
      simp
    | none =>
      rw [if_neg (by simp), filter_cons_of_pos (by simp [hlive]),
        filter_cons_of_neg (by simp [hlive]), map_cons, perform]
      simp only [EpochEvent.act, bind_assoc, pure_bind]
      congr 1
      funext globalStep
      congr 1
      funext keep
      cases keep with
      | true => simp [ih hrest]
      | false => simp

theorem stepChunks_eq {chunks : List (List ℕ)} {members : List (List ChunkMember)}
    (h : Forall₂ (fun chunk members => chunk.mapM batch.member = .ok members) chunks members)
    (state : EpochState) :
    stepChunks trainer batch layout params chunks state =
      perform trainer layout params (members.map .chunk) state := by
  induction h generalizing state with
  | nil => rfl
  | @cons chunk members chunks rest hchunk _ ih =>
    rw [stepChunks, hchunk, map_cons, perform]
    simp only [EpochEvent.act, bind_assoc, pure_bind]
    change (grpoChunkStep trainer layout params members state.reuseBehaviorLogprobs >>= _) = _
    congr 1
    funext ⟨metrics, chunkStats, keepTraining⟩
    cases keepTraining with
    | true => simp [ih]
    | false => simp

/-- The members of every chunk carry the data of their slots. -/
theorem EpochBatch.Aligned.members (haligned : batch.Aligned) {chunks : List (List ℕ)}
    (hchunks : ∀ i ∈ chunks.flatten, i < batch.rollouts.length ∧ batch.live i) :
    ∃ members : List (List ChunkMember),
      Forall₂ (fun chunk members => chunk.mapM batch.member = .ok members) chunks members ∧
      Forall₂ (Forall₂ batch.Carries) chunks members := by
  induction chunks with
  | nil => exact ⟨[], .nil, .nil⟩
  | cons chunk chunks ih =>
    obtain ⟨members, hmembers, hcarries⟩ :=
      mapM_ok (f := batch.member) (R := batch.Carries) (l := chunk) fun i hi => by
        obtain ⟨hlt, hlive⟩ := hchunks i (mem_append_left _ hi)
        exact haligned.member hlt hlive
    obtain ⟨rest, hrest, hcarries'⟩ := ih fun i hi => hchunks i (mem_append_right _ hi)
    exact ⟨members :: rest, .cons hmembers hrest, .cons hcarries hcarries'⟩

end Epoch

/-- Two slots of one group, the first of them dead. -/
def twoSlots : EpochBatch where
  rollouts := [⟨[1, 2], [false, true], [0]⟩, ⟨[1, 3], [false, true], [0]⟩]
  groupIds := [7, 7]
  advantages := [0, 1]
  tokenAdvantages := []
  referencePositions := [none, some 0]
  referenceRows := [[0]]
  rolloutEvals := [1, 1]

/-- An engine that takes every step and never stops. -/
def steadyTrainer : Trainer Unit where
  advanceSchedulerSteps steps s := (.ok steps, s)
  scoreTokenSuffix tokens first s := (.ok (List.replicate (tokens.length - first) 0), s)
  supportsSharedPrefixPackedTraining s := (.ok false, s)
  trainWeighted _ _ _ _ s := (.ok ({}, true), s)
  trainPackedSequences _ _ _ _ _ s := (.ok ({}, true), s)
  onProgress _ s := (.ok true, s)

def eightTokens : RowLayout := ⟨8, 8, 0, 8, 8, 2, .auto, 1, .lockstep, 1, 8⟩

def oneStep : GrpoStepParams := ⟨⟨0.2, 0.2, 0, 4, .token⟩, 1⟩

private theorem twoSlots_aligned : twoSlots.Aligned where
  groupIds := rfl
  advantages := rfl
  positions := rfl
  evals := rfl
  rows _ index position h := by
    match index with
    | 0 => cases h
    | 1 =>
      obtain rfl := Option.some.inj (Option.some.inj h)
      exact Nat.one_pos
    | index + 2 => cases h

end Retrograd.Training
