import Retrograd.Agent.Graded
import Retrograd.Agent.Rollouts

/-!
# Where the rollouts of an update went

Every rollout an update asked for is accounted for **once**: it failed, was cut short and stayed
out, came back without a reward, or trains. Under the minimum-reward policy a truncated member
goes back to the first group in line under its group's id. That is its own group as long as no
other group under that id trains ahead of it: ids are 64-bit hashes, and nothing checks that
those of an update differ.
-/

namespace Retrograd.Agent.Grpo

open Logic List Option Function

variable {τ R : Type}

/-! ### Putting members back into one group -/

section Floor

variable [AddCommGroup R] [LinearOrder R]

omit [LinearOrder R] in
@[simp]
theorem stepRewardSum_floored (minimum : R) (trajectory : Trajectory τ R) :
    stepRewardSum (trajectory.floored minimum) = stepRewardSum trajectory :=
  rfl

omit [LinearOrder R] in
/-- A member put back has the total it was put back at. -/
@[simp]
theorem totalReward_floored (minimum : R) (trajectory : Trajectory τ R) :
    totalReward (trajectory.floored minimum) = minimum := by
  rw [totalReward, stepRewardSum_floored]
  exact sub_add_cancel _ _

omit [AddCommGroup R] in
private theorem foldl_min_isLeast (rest : List R) (first : R) :
    IsLeast {x | x ∈ first :: rest} (rest.foldl min first) := by
  induction rest generalizing first with
  | nil => exact ⟨mem_singleton_self _, fun x hx => (mem_singleton.mp hx).ge⟩
  | cons next rest ih =>
    obtain ⟨hmem, hle⟩ := ih (min first next)
    have hhead : rest.foldl min (min first next) ≤ min first next := hle mem_cons_self
    refine ⟨?_, fun x hx => ?_⟩
    · rcases mem_cons.mp hmem with h | h
      · rcases min_choice first next with hmin | hmin
        · exact mem_cons.mpr (.inl (h.trans hmin))
        · exact mem_cons_of_mem _ (mem_cons.mpr (.inl (h.trans hmin)))
      · exact mem_cons_of_mem _ (mem_cons_of_mem _ h)
    · rcases mem_cons.mp hx with rfl | hx
      · exact hhead.trans (min_le_left _ _)
      · rcases mem_cons.mp hx with rfl | hx
        · exact hhead.trans (min_le_right _ _)
        · exact hle (mem_cons_of_mem _ hx)

omit [AddCommGroup R] in
/-- The minimum a group hands out is the least of its totals. -/
theorem minimumOf_isLeast {values : List R} {minimum : R} (h : minimumOf values = some minimum) :
    IsLeast {x | x ∈ values} minimum := by
  cases values with
  | nil => cases h
  | cons first rest =>
    obtain rfl := some.inj h
    exact foldl_min_isLeast rest first

omit [AddCommGroup R] in
theorem minimumOf_of_isLeast {values : List R} {minimum : R}
    (h : IsLeast {x | x ∈ values} minimum) : minimumOf values = some minimum := by
  cases values with
  | nil => exact absurd h.1 not_mem_nil
  | cons first rest => exact congrArg some ((foldl_min_isLeast rest first).unique h)

/-- A group someone is left in. -/
def TrajectoryGroup.Manned (group : TrajectoryGroup τ R) : Prop := group.trajectories ≠ []

/-- The smallest total reward of a group. -/
def TrajectoryGroup.IsFloor (group : TrajectoryGroup τ R) (minimum : R) : Prop :=
  IsLeast {x | x ∈ group.trajectories.map totalReward} minimum

variable {group : TrajectoryGroup τ R}

theorem TrajectoryGroup.Manned.floor (h : group.Manned) :
    ∃ minimum, group.IsFloor minimum ∧ ∀ truncated, group.restore truncated =
      { group with
        trajectories := group.trajectories ++ truncated.map (Trajectory.floored minimum) } := by
  obtain ⟨first, rest, hcons⟩ := exists_cons_of_ne_nil h
  have hmin : minimumOf (group.trajectories.map totalReward) =
      some ((rest.map totalReward).foldl min (totalReward first)) := by
    rw [hcons]; rfl
  exact ⟨_, minimumOf_isLeast hmin, fun truncated => by rw [restore, hmin]⟩

theorem restore_groupId (group : TrajectoryGroup τ R) (truncated : List (Trajectory τ R)) :
    (group.restore truncated).groupId = group.groupId := by
  unfold TrajectoryGroup.restore
  split <;> rfl

/-- Members put back do not move the floor: two batches go back like one. -/
theorem restore_restore (h : group.Manned) (first second : List (Trajectory τ R)) :
    (group.restore first).restore second = group.restore (first ++ second) := by
  obtain ⟨minimum, ⟨hmem, hle⟩, hrestore⟩ := h.floor
  have hfloor : (group.restore first).IsFloor minimum := by
    rw [hrestore]
    simp only [TrajectoryGroup.IsFloor, map_append, mem_append]
    refine ⟨.inl hmem, fun x hx => ?_⟩
    rcases hx with hx | hx
    · exact hle hx
    · obtain ⟨trajectory, htrajectory, rfl⟩ := List.mem_map.mp hx
      obtain ⟨_, -, rfl⟩ := List.mem_map.mp htrajectory
      exact (totalReward_floored _ _).ge
  rw [TrajectoryGroup.restore, minimumOf_of_isLeast hfloor, hrestore, hrestore]
  simp

theorem TrajectoryGroup.Manned.restore (h : group.Manned) (truncated : List (Trajectory τ R)) :
    (group.restore truncated).Manned := by
  obtain ⟨minimum, -, hrestore⟩ := h.floor
  rw [hrestore]
  exact append_ne_nil_of_left_ne_nil h _

theorem foldl_restore (h : group.Manned) (batches : List (List (Trajectory τ R))) :
    batches.foldl TrajectoryGroup.restore group = group.restore batches.flatten := by
  induction batches generalizing group with
  | nil =>
    obtain ⟨minimum, -, hrestore⟩ := h.floor
    simp [hrestore]
  | cons batch rest ih =>
    rw [foldl_cons, ih (h.restore batch), restore_restore h, flatten_cons]

end Floor

/-! ### What an update promises -/

/-- A trajectory apart from its reward. -/
def Trajectory.ungraded (trajectory : Trajectory τ R) : Trajectory τ R :=
  { trajectory with reward := none }

/-- What no step of an update changes about a trajectory. -/
def Trajectory.tag (trajectory : Trajectory τ R) : τ × Bool :=
  (trajectory.content, trajectory.truncated)

/-- A group that trains: the graded members as they were, then the truncated ones, each with the
smallest total reward of the graded members. -/
structure Floored [AddCommGroup R] [LinearOrder R] (truncated : List (Trajectory τ R))
    (graded group : TrajectoryGroup τ R) : Prop where
  groupId : group.groupId = graded.groupId
  members : ∃ restored, group.trajectories = graded.trajectories ++ restored ∧
    restored.map Trajectory.ungraded = truncated.map Trajectory.ungraded ∧
    ∀ trajectory ∈ restored, graded.IsFloor (totalReward trajectory)

/-- The members withheld from one of the groups rolled out. -/
def cutOf (drawn : List (Drawn τ R)) (i : ℕ) : List (Trajectory τ R) :=
  (drawn[i]?.map Drawn.cut).getD []

/-- Every group that trains has its own truncated members back, and no others; none come back
when the policy drops them. -/
def OwnFloors [AddCommGroup R] [LinearOrder R] [Scale R] (config : AgentGrpoConfig)
    (drawn : List (Drawn τ R)) (groups : List (TrajectoryGroup τ R)) : Prop :=
  List.Forall₂ (fun entry group =>
      Floored (if config.truncation = .minReward then cutOf drawn entry.1 else []) entry.2 group)
    (inLine config.dropDegenerateGroups drawn) groups

/-- The order groups train in. -/
def Ahead (first second : Drawn τ R × ℕ) : Prop :=
  (first.1.isJudged = true ∧ second.1.isJudged = false) ∨
    (first.1.isJudged = second.1.isJudged ∧ first.2 < second.2)

theorem Ahead.asymm {first second : Drawn τ R × ℕ} (h : Ahead first second) :
    ¬ Ahead second first := by
  rintro (⟨hsecond, hfirst⟩ | ⟨heq, hlt⟩)
  · rcases h with ⟨h, -⟩ | ⟨h, -⟩
    · exact absurd h (by simp [hfirst])
    · exact absurd (h.trans hsecond) (by simp [hfirst])
  · rcases h with ⟨h, h'⟩ | ⟨-, h⟩
    · exact absurd (heq.trans h) (by simp [h'])
    · exact absurd h (not_lt.mpr hlt.le)

/-- Members are only put back where no other group under their group's id trains, or where
their own trains ahead of it. -/
def OwnFirst [Scale R] (config : AgentGrpoConfig) (drawn : List (Drawn τ R)) : Prop :=
  config.truncation = .minReward → ∀ (i j : ℕ) (d e : Drawn τ R) (own other : TrajectoryGroup τ R),
    drawn[i]? = some d → drawn[j]? = some e → i ≠ j →
    d.1.group = some own → e.1.group = some other → own.groupId = other.groupId →
    d.cut ≠ [] → (e.graded config.dropDegenerateGroups).isSome →
      (d.graded config.dropDegenerateGroups).isSome ∧ Ahead (d, i) (e, j)

/-! ### The line -/

section Line

variable [Scale R] {drop : Bool} {drawn : List (Drawn τ R)}

theorem mem_inLine {entry : ℕ × TrajectoryGroup τ R} :
    entry ∈ inLine drop drawn ↔
      ∃ d, drawn[entry.1]? = some d ∧ d.graded drop = some entry.2 := by
  simp only [inLine, mem_filterMap, mem_append, mem_filter,
    mem_zipIdx_iff_getElem?, map_eq_some_iff]
  constructor
  · rintro ⟨⟨d, i⟩, hmem, group, hgroup, rfl⟩
    exact ⟨d, hmem.elim And.left And.left, hgroup⟩
  · rintro ⟨d, hd, hgroup⟩
    refine ⟨(d, entry.1), ?_, entry.2, hgroup, rfl⟩
    by_cases h : d.isJudged
    · exact .inl ⟨hd, h⟩
    · exact .inr ⟨hd, by simp [h]⟩

omit [Scale R] in
private theorem filter_ordered {p : Drawn τ R × ℕ → Bool}
    (hp : ∀ a b, p a → p b → a.1.isJudged = b.1.isJudged) :
    (drawn.zipIdx.filter p).Pairwise Ahead := by
  have hindices : drawn.zipIdx.Pairwise fun a b => a.2 < b.2 := by
    rw [← pairwise_map (R := (· < ·)) (f := Prod.snd), zipIdx_map_snd]
    exact pairwise_lt_range'
  refine (hindices.sublist filter_sublist).imp_of_mem fun ha hb hab => ?_
  exact .inr ⟨hp _ _ (mem_filter.mp ha).2 (mem_filter.mp hb).2, hab⟩

theorem inLine_ordered : (inLine drop drawn).Pairwise fun first second =>
    ∀ d e, drawn[first.1]? = some d → drawn[second.1]? = some e →
      Ahead (d, first.1) (e, second.1) := by
  have hordered : (drawn.zipIdx.filter (fun entry => entry.1.isJudged) ++
      drawn.zipIdx.filter fun entry => !entry.1.isJudged).Pairwise Ahead := by
    refine pairwise_append.mpr ⟨filter_ordered fun a b ha hb => by rw [ha, hb],
      filter_ordered fun a b ha hb => by simp_all, fun a ha b hb => .inl ⟨?_, ?_⟩⟩
    · exact (mem_filter.mp ha).2
    · simpa using (mem_filter.mp hb).2
  refine pairwise_filterMap.mpr (hordered.imp_of_mem fun {a b} ha hb hab => ?_)
  have hat : ∀ {c : Drawn τ R × ℕ}, c ∈ drawn.zipIdx.filter (fun entry => entry.1.isJudged) ++
      drawn.zipIdx.filter (fun entry => !entry.1.isJudged) → drawn[c.2]? = some c.1 := by
    intro c hc
    rcases mem_append.mp hc with hc | hc
    · exact mem_zipIdx_iff_getElem?.mp (mem_filter.mp hc).1
    · exact mem_zipIdx_iff_getElem?.mp (mem_filter.mp hc).1
  intro first hfirst second hsecond d e hd he
  obtain ⟨_, -, rfl⟩ := map_eq_some_iff.mp hfirst
  obtain ⟨_, -, rfl⟩ := map_eq_some_iff.mp hsecond
  obtain rfl := some.inj ((hat ha).symm.trans hd)
  obtain rfl := some.inj ((hat hb).symm.trans he)
  exact hab

/-- A group that trains is a group that was kept, with all its rewards. -/
theorem graded_eq_some {d : Drawn τ R} {graded : TrajectoryGroup τ R}
    (h : d.graded drop = some graded) : ∃ own, d.1.group = some own ∧
      graded.groupId = own.groupId ∧ graded.Manned ∧
      graded.trajectories.map Trajectory.tag =
        d.whole.map Trajectory.tag := by
  obtain ⟨kept, hkept, h⟩ := bind_eq_some_iff.mp h
  obtain ⟨own, hown, htwo, rfl⟩ := Drawn.kept_eq_some hkept
  have hwhole : d.whole = own.cut.2 := by simp [Drawn.whole, hown]
  have hmanned : own.cut.2 ≠ [] := by
    intro hnil
    simp [hnil] at htwo
  split at h
  · unfold Drawn.apply at h
    split at h
    · rename_i scores _
      split at h
      · rename_i happly
        cases h
        have hlen : scores.length = own.cut.2.length := by
          simp only [acceptable, Bool.and_eq_true, decide_eq_true_eq] at happly
          exact happly.1.1
        have htags : (TrajectoryGroup.attach { own with trajectories := own.cut.2 } scores
            ).trajectories.map Trajectory.tag =
            own.cut.2.map Trajectory.tag := by
          refine ext_getElem (by simp [TrajectoryGroup.attach, hlen]) fun i _ _ => ?_
          simp [TrajectoryGroup.attach, Trajectory.attach, Trajectory.tag]
        refine ⟨own, hown, rfl, fun hnil => hmanned ?_, by rw [htags, hwhole]⟩
        rw [hnil] at htags
        simpa using htags.symm
      · cases h
    · cases h
  · cases h
    exact ⟨own, hown, rfl, hmanned, by rw [hwhole]⟩

end Line

/-! ### Where truncated members go -/

/-- Where the members withheld from a group go. -/
def Drawn.box (groups : List (TrajectoryGroup τ R)) (drawn : Drawn τ R) : Option ℕ :=
  drawn.1.group.bind fun own => boxOf TrajectoryGroup.groupId groups own.groupId

/-- The members that go back to the group at `p`. -/
theorem sentTo_flatten (groups : List (TrajectoryGroup τ R)) (p : ℕ) (drawn : List (Drawn τ R)) :
    (sentTo TrajectoryGroup.groupId groups p (drawn.filterMap Drawn.withheld)).flatten =
      drawn.flatMap fun d => if d.box groups = some p then d.cut else [] := by
  induction drawn with
  | nil => rfl
  | cons d rest ih =>
    rw [flatMap_cons, ← ih]
    cases hgroup : d.1.group with
    | none => simp [Drawn.withheld, Drawn.box, hgroup]
    | some own =>
      by_cases hcut : own.cut.1 = []
      · simp [Drawn.withheld, Drawn.cut, hgroup, hcut]
      · by_cases hbox : boxOf TrajectoryGroup.groupId groups own.groupId = some p
        · simp [Drawn.withheld, Drawn.box, Drawn.cut, sentTo, hgroup, hcut, hbox]
        · simp [Drawn.withheld, Drawn.box, sentTo, hgroup, hcut, hbox]

/-- Only one part of a concatenation is not empty. -/
private theorem flatMap_single {α β : Type} {f : α → List β} {l : List α} {i : ℕ} {a : α}
    (hi : l[i]? = some a) (h : ∀ k b, k ≠ i → l[k]? = some b → f b = []) : l.flatMap f = f a := by
  induction l generalizing i with
  | nil => simp at hi
  | cons b rest ih =>
    cases i with
    | zero =>
      obtain rfl : b = a := by simpa using hi
      have hrest : rest.flatMap f = [] := flatMap_eq_nil_iff.mpr fun c hc => by
        obtain ⟨k, hk⟩ := mem_iff_getElem?.mp hc
        exact h (k + 1) c (by omega) (by simpa using hk)
      rw [flatMap_cons, hrest, append_nil]
    | succ i =>
      rw [flatMap_cons, h 0 b (by omega) (by simp), nil_append]
      exact ih (by simpa using hi) fun k c hk hc => h (k + 1) c (by omega) (by simpa using hc)

private theorem flatMap_two {α β : Type} {f : α → List β} {l : List α} {i k : ℕ} {a b : α}
    (hi : l[i]? = some a) (hk : l[k]? = some b) (hne : i ≠ k) :
    (f a).length + (f b).length ≤ (l.flatMap f).length := by
  induction l generalizing i k with
  | nil => simp at hi
  | cons c rest ih =>
    have hin : ∀ {j : ℕ} {d : α}, rest[j]? = some d →
        (f d).length ≤ (rest.flatMap f).length := fun hd =>
      (sublist_flatten_of_mem (List.mem_map_of_mem (f := f) (mem_of_getElem? hd))).length_le
    rw [flatMap_cons, length_append]
    cases i with
    | zero =>
      obtain rfl : c = a := by simpa using hi
      cases k with
      | zero => exact absurd rfl hne
      | succ k => exact Nat.add_le_add_left (hin (by simpa using hk)) _
    | succ i =>
      cases k with
      | zero =>
        obtain rfl : c = b := by simpa using hk
        rw [Nat.add_comm]
        exact Nat.add_le_add_left (hin (by simpa using hi)) _
      | succ k =>
        exact (ih (by simpa using hi) (by simpa using hk) (by omega)).trans (Nat.le_add_left _ _)

section Routed

variable [AddCommGroup R] [LinearOrder R]

/-- A group has its own members back just when those are the members it got. -/
theorem floored_restore_iff {truncated members : List (Trajectory τ R)}
    {graded : TrajectoryGroup τ R} (h : graded.Manned) :
    Floored truncated graded (graded.restore members) ↔
      members.map Trajectory.ungraded = truncated.map Trajectory.ungraded := by
  obtain ⟨minimum, hfloor, hrestore⟩ := h.floor
  have hungraded : (members.map (Trajectory.floored minimum)).map Trajectory.ungraded =
      members.map Trajectory.ungraded := by
    rw [List.map_map]
    rfl
  constructor
  · rintro ⟨-, restored, hmembers, hown, -⟩
    rw [hrestore] at hmembers
    rw [← hown, ← append_cancel_left hmembers, hungraded]
  · intro hown
    refine ⟨restore_groupId _ _, _, by rw [hrestore], hungraded.trans hown, ?_⟩
    intro trajectory hmem
    obtain ⟨_, -, rfl⟩ := List.mem_map.mp hmem
    rwa [totalReward_floored]

variable [Scale R] {config : AgentGrpoConfig} {drawn : List (Drawn τ R)}

variable {groups : List (TrajectoryGroup τ R)}

/-- Whether every group has its own members back, from what was sent to it. -/
theorem ownFloors_iff_sent (hpolicy : config.truncation = .minReward)
    (hgroups : groups = (inLine config.dropDegenerateGroups drawn).map Prod.snd) :
    OwnFloors config drawn (restoreTruncatedMembers groups (drawn.filterMap Drawn.withheld)) ↔
      ∀ p entry, (inLine config.dropDegenerateGroups drawn)[p]? = some entry →
        (drawn.flatMap fun d => if d.box groups = some p then d.cut else []).map
          Trajectory.ungraded = (cutOf drawn entry.1).map Trajectory.ungraded := by
  have hlen : (restoreTruncatedMembers groups (drawn.filterMap Drawn.withheld)).length =
      (inLine config.dropDegenerateGroups drawn).length := by
    have hids : (restoreTruncatedMembers groups (drawn.filterMap Drawn.withheld)).map
        TrajectoryGroup.groupId = groups.map TrajectoryGroup.groupId :=
      map_deliver restore_groupId _ _
    simpa [hgroups] using congrArg List.length hids
  have hat : ∀ (p : ℕ) (entry : ℕ × TrajectoryGroup τ R),
      (inLine config.dropDegenerateGroups drawn)[p]? = some entry →
      entry.2.Manned ∧ (restoreTruncatedMembers groups (drawn.filterMap Drawn.withheld))[p]? =
        some (entry.2.restore
          (drawn.flatMap fun d => if d.box groups = some p then d.cut else [])) := by
    intro p entry hentry
    obtain ⟨d, -, hgraded⟩ := mem_inLine.mp (mem_of_getElem? hentry)
    obtain ⟨-, -, -, hmanned, -⟩ := graded_eq_some hgraded
    have hp : groups[p]? = some entry.2 := by rw [hgroups, getElem?_map, hentry]; rfl
    refine ⟨hmanned, ?_⟩
    rw [restoreTruncatedMembers, getElem?_deliver restore_groupId, hp, map_some,
      foldl_restore hmanned, sentTo_flatten]
  rw [OwnFloors, forall₂_iff_get, and_iff_right hlen.symm]
  simp only [hpolicy, if_true]
  constructor
  · intro h p entry hentry
    obtain ⟨hmanned, hp⟩ := hat p entry hentry
    obtain ⟨hlt, rfl⟩ := List.getElem?_eq_some_iff.mp hentry
    obtain ⟨hlt', hgroup⟩ := List.getElem?_eq_some_iff.mp hp
    have := h p hlt hlt'
    rw [get_eq_getElem, get_eq_getElem] at this
    exact (floored_restore_iff hmanned).mp (hgroup ▸ this)
  · intro h p hlt hlt'
    obtain ⟨hmanned, hp⟩ := hat p _ (getElem?_eq_getElem hlt)
    obtain ⟨_, hgroup⟩ := List.getElem?_eq_some_iff.mp hp
    have := (floored_restore_iff hmanned).mpr (h p _ (getElem?_eq_getElem hlt))
    simpa [hgroup] using this

/-- **Members go back to their own group** just when no other group ahead of it, or in its
place, has its id. -/
theorem ownFloors_iff (hpolicy : config.truncation = .minReward)
    (hgroups : groups = (inLine config.dropDegenerateGroups drawn).map Prod.snd) :
    OwnFloors config drawn (restoreTruncatedMembers groups (drawn.filterMap Drawn.withheld)) ↔
      OwnFirst config drawn := by
  rw [ownFloors_iff_sent hpolicy hgroups]
  -- who stands in line at `p`, and that it is there under the id of the group rolled out
  have hplace : ∀ {p : ℕ} {entry : ℕ × TrajectoryGroup τ R},
      (inLine config.dropDegenerateGroups drawn)[p]? = some entry → ∃ d own,
        drawn[entry.1]? = some d ∧ (d.graded config.dropDegenerateGroups).isSome ∧
        d.1.group = some own ∧ own.groupId = entry.2.groupId ∧ groups[p]? = some entry.2 := by
    intro p entry hentry
    obtain ⟨d, hd, hgraded⟩ := mem_inLine.mp (mem_of_getElem? hentry)
    obtain ⟨own, hown, hid, -, -⟩ := graded_eq_some hgraded
    exact ⟨d, own, hd, by rw [hgraded]; rfl, hown, hid.symm,
      by rw [hgroups, getElem?_map, hentry]; rfl⟩
  have hahead : ∀ {p q : ℕ} {first second : ℕ × TrajectoryGroup τ R} {d e : Drawn τ R}, p < q →
      (inLine config.dropDegenerateGroups drawn)[p]? = some first →
      (inLine config.dropDegenerateGroups drawn)[q]? = some second →
      drawn[first.1]? = some d → drawn[second.1]? = some e →
        Ahead (d, first.1) (e, second.1) := by
    intro p q first second d e hpq hp hq
    obtain ⟨hplt, rfl⟩ := List.getElem?_eq_some_iff.mp hp
    obtain ⟨hqlt, rfl⟩ := List.getElem?_eq_some_iff.mp hq
    exact pairwise_iff_getElem.mp inLine_ordered p q hplt hqlt hpq d e
  have hbox : ∀ {d : Drawn τ R} {own : TrajectoryGroup τ R}, d.1.group = some own →
      d.box groups = boxOf TrajectoryGroup.groupId groups own.groupId := by
    intro d own hown
    rw [Drawn.box, hown, bind_some]
  constructor
  · intro h _ i j d e own other hd he hne hown hother hid hcut htrains
    obtain ⟨graded, hgraded⟩ := isSome_iff_exists.mp htrains
    have hin : (j, graded) ∈ inLine config.dropDegenerateGroups drawn :=
      mem_inLine.mpr ⟨e, he, hgraded⟩
    obtain ⟨q, hq⟩ := mem_iff_getElem?.mp hin
    obtain ⟨_, _, he', -, hother', hqid, hgroupsq⟩ := hplace hq
    obtain rfl := some.inj (he.symm.trans he')
    obtain rfl := some.inj (hother.symm.trans hother')
    -- the first in line under that id is the one the members of `d` go to
    obtain ⟨p, hpq, hp⟩ := exists_boxOf TrajectoryGroup.groupId hgroupsq
    obtain ⟨entry, hentry⟩ : ∃ entry, (inLine config.dropDegenerateGroups drawn)[p]? =
        some entry := ⟨_, getElem?_eq_getElem
      (hpq.trans_lt (List.getElem?_eq_some_iff.mp hq).1)⟩
    obtain ⟨first, drew, hfirst, hfirsts, hdrew, hpid, hgroupsp⟩ := hplace hentry
    have hfirstid : entry.2.groupId = graded.groupId := by
      obtain ⟨⟨_, hat, hkey⟩, -⟩ := boxOf_eq_some.mp hp
      rwa [some.inj (hat.symm.trans hgroupsp)] at hkey
    have hdbox : d.box groups = some p := by rw [hbox hown, hid, hqid, hp]
    by_cases hik : i = entry.1
    · subst hik
      obtain rfl := some.inj (hd.symm.trans hfirst)
      refine ⟨hfirsts, hahead (lt_of_le_of_ne hpq fun hpq => hne ?_) hentry hq hd he⟩
      subst hpq
      exact congrArg Prod.fst (some.inj (hentry.symm.trans hq))
    · exfalso
      have hfirstbox : first.box groups = some p := by
        rw [hbox hdrew, hpid, hfirstid, hp]
      have hsent := congrArg List.length (h p entry hentry)
      have htwo := flatMap_two (f := fun d => if d.box groups = some p then d.cut else [])
        hd hfirst hik
      simp only [length_map, cutOf, hfirst, map_some, getD_some] at hsent
      simp only [hdbox, hfirstbox, if_true, hsent] at htwo
      exact hcut (length_eq_zero_iff.mp (by omega))
  · intro h p entry hentry
    obtain ⟨d, own, hd, hsome, hown, hid, hgroupsp⟩ := hplace hentry
    have hcutOf : cutOf drawn entry.1 = d.cut := by
      rw [cutOf, hd, map_some, getD_some]
    rw [hcutOf]
    congr 1
    have hothers : ∀ k b, k ≠ entry.1 → drawn[k]? = some b →
        (if b.box groups = some p then b.cut else []) = [] := by
      intro k b hk hb
      by_contra hne
      split at hne
      · rename_i hbp
        obtain ⟨drew, hdrew, hboxOf⟩ := bind_eq_some_iff.mp hbp
        obtain ⟨⟨_, hat, hkey⟩, hbefore⟩ := boxOf_eq_some.mp hboxOf
        obtain rfl := some.inj (hgroupsp.symm.trans hat)
        obtain ⟨hbsome, hbahead⟩ := h hpolicy k entry.1 b d drew own hb hd hk hdrew hown
          (hkey.symm.trans hid.symm) hne hsome
        obtain ⟨graded, hgraded⟩ := isSome_iff_exists.mp hbsome
        have hin : (k, graded) ∈ inLine config.dropDegenerateGroups drawn :=
          mem_inLine.mpr ⟨b, hb, hgraded⟩
        obtain ⟨q, hq⟩ := mem_iff_getElem?.mp hin
        obtain ⟨_, _, hb', -, hdrew', hqid, hgroupsq⟩ := hplace hq
        obtain rfl := some.inj (hb.symm.trans hb')
        obtain rfl := some.inj (hdrew.symm.trans hdrew')
        rcases lt_trichotomy q p with hqp | rfl | hpq
        · exact hbefore q hqp _ hgroupsq hqid.symm
        · exact hk (congrArg Prod.fst (some.inj (hq.symm.trans hentry)))
        · exact hbahead.asymm (hahead hpq hentry hq hd hb)
      · exact hne rfl
    rw [flatMap_single hd hothers]
    split
    · rfl
    · rename_i hdp
      by_contra hne
      -- an earlier group of the line has the id
      obtain ⟨q, hqp, hq⟩ := exists_boxOf TrajectoryGroup.groupId hgroupsp
      have hqlt : q < p := lt_of_le_of_ne hqp fun hqp => hdp (by rw [hbox hown, hid, hq, hqp])
      obtain ⟨ahead, hahead'⟩ : ∃ ahead, (inLine config.dropDegenerateGroups drawn)[q]? =
          some ahead := ⟨_, getElem?_eq_getElem
        (hqlt.trans (List.getElem?_eq_some_iff.mp hentry).1)⟩
      obtain ⟨first, drew, hfirst, hfirsts, hdrew, hqid, hgroupsq⟩ := hplace hahead'
      have hfirstd := hahead hqlt hahead' hentry hfirst hd
      have hk : entry.1 ≠ ahead.1 := by
        intro hk
        rw [hk] at hd
        obtain rfl := some.inj (hd.symm.trans hfirst)
        rw [hk] at hfirstd
        exact hfirstd.asymm hfirstd
      obtain ⟨⟨_, hat, hkey⟩, -⟩ := boxOf_eq_some.mp hq
      obtain rfl := some.inj (hgroupsq.symm.trans hat)
      exact (h hpolicy entry.1 ahead.1 d first own drew hd hfirst hk hown hdrew
        (hid.trans (hkey.symm.trans hqid.symm)) (Ne.symm hne) hfirsts).2.asymm hfirstd

end Routed

/-! ### Counting -/

/-- The trajectories a group's rollouts returned. -/
def returned {groupSize : ℕ} (rollouts : Rollouts τ R groupSize) : List (Trajectory τ R) :=
  match rollouts with
  | .error _ => []
  | .ok results => trajectoriesOf results.1

/-- The rollouts of a group as the engine runs them: one result for each seed. -/
def ofEngine {σ ε : Type} {out : Outside σ ε} {engine : Engine} {world world' : World σ ε}
    {scenario : Scenario} {seeds : List UInt64} {results : List (Except Error Agent.Trajectory)}
    (hserved : Served out engine world)
    (h : rolloutMany out engine scenario seeds world = .ok results world') :
    Rollouts Agent.Trajectory Float32 seeds.length :=
  .ok ⟨results.map (Except.map ofRollout), by rw [List.length_map, rolloutMany_length hserved h]⟩

/-- Where the rollouts of an update went. -/
structure Accounted (config : AgentGrpoConfig) (selected : List (Selected τ R config.groupSize))
    (settled : Settled τ R) : Prop where
  attempted : settled.attempted = selected.length * config.groupSize
  /-- A rollout failed if it returned no trajectory. -/
  failed : settled.breakdown.failed =
    (selected.map fun scenario => config.groupSize - (returned scenario.rollouts).length).sum
  trained : settled.trained = (settled.groups.flatMap TrajectoryGroup.trajectories).length
  /-- Every rollout went exactly one way. -/
  total : settled.attempted = settled.breakdown.failed + settled.breakdown.truncated +
    settled.breakdown.unscored + settled.trained
  /-- No trajectory is trained twice. -/
  once : ((settled.groups.flatMap TrajectoryGroup.trajectories).map Trajectory.content).Subperm
    ((selected.flatMap fun scenario => returned scenario.rollouts).map Trajectory.content)

section Counting

variable {groupSize : ℕ}

theorem total_record (failures : RolloutFailures) (kind : FailureKind) :
    (failures.record kind).total = failures.total + 1 := by
  cases kind <;> simp only [RolloutFailures.record, RolloutFailures.total] <;> omega

private theorem failuresOf_total (results : List (Except Error (Trajectory τ R))) :
    (failuresOf results).1.total + (trajectoriesOf results).length = results.length := by
  have hfold : ∀ seen : RolloutFailures × Option Error,
      (results.foldl noteFailure seen).1.total + (trajectoriesOf results).length =
        seen.1.total + results.length := by
    induction results with
    | nil => simp [trajectoriesOf]
    | cons result rest ih =>
      intro seen
      have hrest := ih (noteFailure seen result)
      cases result with
      | ok trajectory =>
        simp only [trajectoriesOf, noteFailure, foldl_cons, filterMap_cons,
          Except.toOption, length_cons] at hrest ⊢
        omega
      | error error =>
        simp only [trajectoriesOf, noteFailure, foldl_cons, filterMap_cons,
          Except.toOption, length_cons, total_record] at hrest ⊢
        omega
  exact (hfold ({}, none)).trans (Nat.zero_add _)

variable [Zero R]

private theorem normalizeRewards_tags (trajectories : List (Trajectory τ R)) :
    (normalizeRewards trajectories).map Trajectory.tag = trajectories.map Trajectory.tag := by
  unfold normalizeRewards
  split
  · rw [List.map_map]
    rfl
  · rfl

/-- The rollouts of a group: those that failed, and those that returned. -/
theorem rolloutGroup_failed (scenarioId : String) (seed : UInt64)
    (rollouts : Rollouts τ R groupSize) :
    (rolloutGroup scenarioId seed rollouts).failures.total =
        groupSize - (returned rollouts).length ∧
      (returned rollouts).length ≤ groupSize := by
  cases rollouts with
  | error error =>
    have hfold : ∀ n (failures : RolloutFailures), ((List.range n).foldl
        (fun failures _ => failures.record (failureKind error)) failures).total =
          failures.total + n := by
      intro n
      induction n with
      | zero => simp
      | succ n ih => intro failures; simp [range_succ, ih, total_record, Nat.add_assoc]
    exact ⟨(hfold groupSize {}).trans (Nat.zero_add _), Nat.zero_le _⟩
  | ok results =>
    have := failuresOf_total results.1
    have hlen := results.2
    simp only [rolloutGroup, returned]
    omega

/-- The members of a group are trajectories that returned. -/
theorem rolloutGroup_members {scenarioId : String} {seed : UInt64}
    {rollouts : Rollouts τ R groupSize} {group : TrajectoryGroup τ R}
    (h : (rolloutGroup scenarioId seed rollouts).group = some group) :
    group.trajectories.map Trajectory.tag = (returned rollouts).map Trajectory.tag := by
  cases rollouts with
  | error error => cases h
  | ok results =>
    simp only [rolloutGroup] at h
    split at h
    · cases h
      exact normalizeRewards_tags _
    · cases h

/-- What no step changes about the members of some groups, however often each occurs. -/
def tagsOf (groups : List (TrajectoryGroup τ R)) : Multiset (τ × Bool) :=
  (groups.map fun group => (group.trajectories.map Trajectory.tag : Multiset (τ × Bool))).sum

omit [Zero R] in
theorem tagsOf_eq (groups : List (TrajectoryGroup τ R)) :
    tagsOf groups = (groups.flatMap TrajectoryGroup.trajectories).map Trajectory.tag := by
  induction groups with
  | nil => rfl
  | cons group rest ih =>
    rw [tagsOf, map_cons, sum_cons, flatMap_cons, map_append,
      ← Multiset.coe_add, ← ih, tagsOf]

end Counting

section Settling

variable [AddCommGroup R] [LinearOrder R] [Scale R] {config : AgentGrpoConfig}
  {drawn : List (Drawn τ R)} {drop : Bool}

omit [AddCommGroup R] [LinearOrder R] in
private theorem inLine_perm :
    ((inLine drop drawn).map Prod.snd).Perm (drawn.filterMap (Drawn.graded drop)) := by
  have hzip : (drawn.zipIdx.filterMap fun entry => (entry.1.graded drop).map (entry.2, ·)).map
      Prod.snd = drawn.filterMap (Drawn.graded drop) := by
    conv_rhs => rw [← zipIdx_map_fst 0 drawn, filterMap_map]
    rw [map_filterMap]
    refine filterMap_congr fun entry _ => ?_
    simp [comp_def]
  rw [← hzip]
  exact ((filter_append_perm _ _).filterMap _).map _

omit [AddCommGroup R] [LinearOrder R] in
/-- The groups that train have members that came back whole, each of them once. -/
theorem tagsOf_inLine : tagsOf ((inLine drop drawn).map Prod.snd) ≤
    ((drawn.flatMap Drawn.whole).map Trajectory.tag : Multiset (τ × Bool)) := by
  have hsum : tagsOf ((inLine drop drawn).map Prod.snd) =
      tagsOf (drawn.filterMap (Drawn.graded drop)) := (inLine_perm.map _).sum_eq
  rw [hsum]
  clear hsum
  induction drawn with
  | nil => exact le_rfl
  | cons d rest ih =>
    rw [flatMap_cons, map_append, ← Multiset.coe_add, filterMap_cons]
    cases hgraded : d.graded drop with
    | none => exact ih.trans (Multiset.le_add_left _ _)
    | some graded =>
      obtain ⟨_, -, -, -, htags⟩ := graded_eq_some hgraded
      rw [tagsOf, map_cons, sum_cons, htags]
      exact add_le_add_right ih _

omit [AddCommGroup R] [LinearOrder R] [Scale R] in
private theorem withheld_tags (p : UInt64 × List (Trajectory τ R) → Bool) :
    (((drawn.filterMap Drawn.withheld).filter p).map fun entry =>
      (entry.2.map Trajectory.tag : Multiset (τ × Bool))).sum ≤
        ((drawn.flatMap Drawn.cut).map Trajectory.tag : Multiset (τ × Bool)) := by
  induction drawn with
  | nil => exact le_rfl
  | cons d rest ih =>
    rw [flatMap_cons, map_append, ← Multiset.coe_add, filterMap_cons]
    cases hwithheld : d.withheld with
    | none => exact ih.trans (Multiset.le_add_left _ _)
    | some entry =>
      obtain ⟨own, hown, hentry⟩ := bind_eq_some_iff.mp hwithheld
      have hcut : entry.2 = d.cut := by
        rw [Drawn.cut_eq hown]
        split at hentry
        · cases hentry
        · cases hentry; rfl
      dsimp only
      rw [filter_cons]
      split
      · rw [map_cons, sum_cons, hcut]
        exact add_le_add_right ih _
      · exact ih.trans (Multiset.le_add_left _ _)

omit [Scale R] in
theorem restore_tags {group : TrajectoryGroup τ R} (h : group.Manned)
    (members : List (Trajectory τ R)) :
    ((group.restore members).trajectories.map Trajectory.tag : Multiset (τ × Bool)) =
      (group.trajectories.map Trajectory.tag : Multiset (τ × Bool)) +
        (members.map Trajectory.tag : Multiset (τ × Bool)) := by
  obtain ⟨minimum, -, hrestore⟩ := h.floor
  rw [hrestore, map_append, ← Multiset.coe_add, List.map_map]
  rfl

/-- The groups an update trains on. -/
def trainedGroups (config : AgentGrpoConfig) (drawn : List (Drawn τ R)) :
    List (TrajectoryGroup τ R) :=
  let graded := (inLine config.dropDegenerateGroups drawn).map Prod.snd
  if config.truncation = .minReward then
    restoreTruncatedMembers graded (drawn.filterMap Drawn.withheld)
  else graded

/-- What trains is members that came back whole, and truncated ones that were put back. -/
theorem tagsOf_trained : ∃ whole restored : Multiset (τ × Bool),
    tagsOf (trainedGroups config drawn) = whole + restored ∧
      whole ≤ ((drawn.flatMap Drawn.whole).map Trajectory.tag : Multiset (τ × Bool)) ∧
      restored ≤ ((drawn.flatMap Drawn.cut).map Trajectory.tag : Multiset (τ × Bool)) := by
  unfold trainedGroups
  dsimp only
  split
  · have hmanned : ∀ group ∈ (inLine config.dropDegenerateGroups drawn).map Prod.snd,
        group.Manned := by
      intro group hmem
      obtain ⟨entry, hentry, rfl⟩ := List.mem_map.mp hmem
      obtain ⟨d, -, hgraded⟩ := mem_inLine.mp hentry
      obtain ⟨-, -, -, hmanned, -⟩ := graded_eq_some hgraded
      exact hmanned
    exact ⟨_, _, sum_deliver restore_groupId (fun group members h => h.restore members)
      (fun group members h => restore_tags h members) hmanned _, tagsOf_inLine, withheld_tags _⟩
  · exact ⟨_, 0, (add_zero _).symm, tagsOf_inLine, Multiset.zero_le _⟩

omit [AddCommGroup R] [LinearOrder R] [Scale R] in
theorem whole_tags {tag : τ × Bool}
    (h : tag ∈ ((drawn.flatMap Drawn.whole).map Trajectory.tag : Multiset (τ × Bool))) :
    tag.2 = false := by
  simp only [Multiset.mem_coe, List.mem_map, mem_flatMap, Drawn.whole, TrajectoryGroup.cut,
    partition_eq_filter_filter, mem_filter] at h
  obtain ⟨trajectory, ⟨d, -, own, -, -, hwhole⟩, rfl⟩ := h
  simpa [Trajectory.tag] using hwhole

omit [AddCommGroup R] [LinearOrder R] [Scale R] in
theorem cut_tags {tag : τ × Bool}
    (h : tag ∈ ((drawn.flatMap Drawn.cut).map Trajectory.tag : Multiset (τ × Bool))) :
    tag.2 = true := by
  simp only [Multiset.mem_coe, List.mem_map, mem_flatMap, Drawn.cut, TrajectoryGroup.cut,
    partition_eq_filter_filter, mem_filter] at h
  obtain ⟨trajectory, ⟨d, -, own, -, -, hcut⟩, rfl⟩ := h
  simpa [Trajectory.tag] using hcut

/-- What one scenario of an update has to do with the group it drew. -/
def DrewFrom (scenario : Selected τ R config.groupSize) (d : Drawn τ R) : Prop :=
  ∃ seed, d = (rolloutGroup scenario.scenarioId seed scenario.rollouts, scenario.reward)

omit [LinearOrder R] [Scale R] in
theorem rolledOut_drew (update : UInt32) (selected : List (Selected τ R config.groupSize)) :
    Forall₂ DrewFrom selected (rolledOut config update selected) := by
  refine forall₂_iff_get.mpr ⟨by simp [rolledOut], fun i hi hi' => ?_⟩
  exact ⟨config.groupSeed update i, by simp [rolledOut]⟩

omit [LinearOrder R] [Scale R] in
theorem DrewFrom.tags {scenario : Selected τ R config.groupSize} {d : Drawn τ R}
    (h : DrewFrom scenario d) :
    (d.whole.map Trajectory.tag : Multiset (τ × Bool)) +
      (d.cut.map Trajectory.tag : Multiset (τ × Bool)) ≤
        ((returned scenario.rollouts).map Trajectory.tag : Multiset (τ × Bool)) := by
  obtain ⟨seed, rfl⟩ := h
  cases hgroup : (rolloutGroup scenario.scenarioId seed scenario.rollouts).group with
  | none =>
    simp only [Drawn.whole, Drawn.cut, hgroup, toList_none, flatMap_nil, map_nil,
      Multiset.coe_nil, add_zero]
    exact Multiset.zero_le _
  | some own =>
    have hperm : (own.cut.2 ++ own.cut.1).Perm own.trajectories := by
      rw [TrajectoryGroup.cut, partition_eq_filter_filter]
      exact perm_append_comm.trans (filter_append_perm _ _)
    rw [← rolloutGroup_members hgroup, Multiset.coe_add, ← map_append]
    simp only [Drawn.whole, Drawn.cut, hgroup, toList_some, flatMap_cons,
      flatMap_nil, append_nil]
    exact (Multiset.coe_eq_coe.mpr (hperm.map _)).le

variable {selected : List (Selected τ R config.groupSize)}

omit [LinearOrder R] [Scale R] in
/-- What the rollouts of an update returned, whole or cut short. -/
theorem drawn_tags (h : Forall₂ DrewFrom selected drawn) :
    ((drawn.flatMap Drawn.whole).map Trajectory.tag : Multiset (τ × Bool)) +
      ((drawn.flatMap Drawn.cut).map Trajectory.tag : Multiset (τ × Bool)) ≤
        ((selected.flatMap fun scenario => returned scenario.rollouts).map Trajectory.tag :
          Multiset (τ × Bool)) := by
  induction h with
  | nil => exact le_rfl
  | cons hfirst _ ih =>
    simp only [flatMap_cons, map_append, ← Multiset.coe_add]
    rw [add_add_add_comm]
    exact add_le_add hfirst.tags ih

omit [LinearOrder R] [Scale R] in
/-- The rollouts an update asked for: those that failed, and those that returned. -/
theorem drawn_rollouts (h : Forall₂ DrewFrom selected drawn) :
    (drawn.map fun d => d.1.attempted).sum = selected.length * config.groupSize ∧
      (drawn.map fun d => d.1.failures.total).sum =
        (selected.map fun scenario =>
          config.groupSize - (returned scenario.rollouts).length).sum ∧
      (drawn.map fun d => d.1.failures.total).sum +
        (selected.flatMap fun scenario => returned scenario.rollouts).length =
          selected.length * config.groupSize := by
  induction h with
  | nil => simp
  | @cons scenario d selected drawn hfirst _ ih =>
    obtain ⟨hattempted, hfailed, hall⟩ := ih
    obtain ⟨seed, rfl⟩ := hfirst
    obtain ⟨hlost, hle⟩ := rolloutGroup_failed scenario.scenarioId seed scenario.rollouts
    have hasked : (rolloutGroup scenario.scenarioId seed scenario.rollouts).attempted =
        config.groupSize := by
      unfold rolloutGroup
      split <;> rfl
    simp only [map_cons, sum_cons, flatMap_cons, length_append,
      length_cons, Nat.succ_mul]
    refine ⟨by rw [hattempted, hasked, Nat.add_comm], by rw [hfailed, hlost], ?_⟩
    omega

variable {collected : Collected τ R}

variable {judged : List (TrajectoryGroup τ R)} {metrics : JudgeBatchMetrics}

/-- **An update accounts for every rollout** it asked for. -/
theorem account_accounted (hdrew : Forall₂ DrewFrom selected drawn)
    (hgathered : Gathered drawn collected)
    (hgraded : (judged ++ collected.environmentScored).filter TrajectoryGroup.complete = (inLine config.dropDegenerateGroups drawn).map Prod.snd) :
    ∃ settled, account config collected judged metrics = .ok settled ∧
      settled.groups = trainedGroups config drawn ∧ Accounted config selected settled := by
  obtain ⟨whole, restored, htrained, hwhole, hrestored⟩ :=
    (tagsOf_trained : ∃ whole restored, tagsOf (trainedGroups config drawn) = whole + restored ∧ _)
  rw [tagsOf_eq] at htrained
  obtain ⟨hattempted, hfailed, hall⟩ := drawn_rollouts hdrew
  set members := (trainedGroups config drawn).flatMap TrajectoryGroup.trajectories with hmembers
  have hlength : members.length = Multiset.card whole + Multiset.card restored := by
    simpa using congrArg Multiset.card htrained
  have hcut : (members.countP fun trajectory => trajectory.truncated) =
      Multiset.card restored := by
    have hcount : (members.countP fun trajectory => trajectory.truncated) =
        Multiset.countP (fun tag : τ × Bool => tag.2 = true) (whole + restored) := by
      rw [← htrained, Multiset.coe_countP, countP_map]
      simp [comp_def, Trajectory.tag]
    rw [hcount, Multiset.countP_add, Multiset.countP_eq_zero.mpr, Multiset.countP_eq_card.mpr,
      Nat.zero_add]
    · exact fun tag htag => cut_tags (Multiset.mem_of_le hrestored htag)
    · intro tag htag
      simp [whole_tags (Multiset.mem_of_le hwhole htag)]
  have hwholes := Multiset.card_le_card hwhole
  have hcuts := Multiset.card_le_card hrestored
  have hreturned := Multiset.card_le_card (drawn_tags hdrew)
  rw [Multiset.card_add] at hreturned
  simp only [Multiset.coe_card, length_map] at hwholes hcuts hreturned
  have htruncated : collected.breakdown.truncated = (drawn.flatMap Drawn.cut).length := by
    rw [hgathered.truncated, length_flatMap]
  have hsub : checkedSub collected.breakdown.truncated
      (members.countP fun trajectory => trajectory.truncated) =
        .ok ((drawn.flatMap Drawn.cut).length - Multiset.card restored) := by
    rw [checkedSub, htruncated, hcut, if_pos hcuts]
  have hsum : ((trainedGroups config drawn).map fun group => group.trajectories.length).sum =
      members.length := length_flatMap.symm
  have hgraded' : ((judged ++ collected.environmentScored).filter fun group =>
      group.trajectories.all fun trajectory => trajectory.reward.isSome) =
        (inLine config.dropDegenerateGroups drawn).map Prod.snd := hgraded
  have haccount : account config collected judged metrics = .ok
      { attempted := collected.attempted
        breakdown :=
          { failed := collected.failures.total
            truncated := (drawn.flatMap Drawn.cut).length - Multiset.card restored
            unscored := collected.attempted - collected.failures.total -
              ((drawn.flatMap Drawn.cut).length - Multiset.card restored) - members.length }
        trained := members.length
        groups := trainedGroups config drawn
        reportedError := collected.lastError.map Report.error <|> metrics.lastError } := by
    rw [account, hgraded', hgathered.withheld]
    change (checkedSub collected.breakdown.truncated (members.countP _) >>= _) = _
    rw [hsub, ← hsum]
    rfl
  refine ⟨_, haccount, rfl, ?_⟩
  constructor
  · exact hgathered.attempted.trans hattempted
  · exact hgathered.failed.trans hfailed
  · rfl
  · dsimp only
    rw [hgathered.attempted, hgathered.failed]
    omega
  · refine Multiset.coe_le.mp ?_
    have htags : (members.map Trajectory.tag : Multiset (τ × Bool)) ≤
        ((selected.flatMap fun scenario => returned scenario.rollouts).map Trajectory.tag :
          Multiset (τ × Bool)) := by
      rw [htrained]
      exact (add_le_add hwhole hrestored).trans (drawn_tags hdrew)
    simpa [Multiset.map_coe, comp_def, Trajectory.tag] using
      Multiset.map_le_map (f := Prod.fst) htags

omit [AddCommGroup R] [LinearOrder R] in
/-- The verdicts of an update leave the groups of the line complete, and no others. -/
theorem applyVerdicts_graded (hgathered : Gathered drawn collected)
    (h : applyVerdicts config collected = .ok (judged, metrics)) :
    (judged ++ collected.environmentScored).filter TrajectoryGroup.complete =
      (inLine config.dropDegenerateGroups drawn).map Prod.snd := by
  have happly : ∃ before after, applyEach config.judgeFailure config.dropDegenerateGroups
      (drawn.filterMap Drawn.sent) before = .ok (judged, after) := by
    rw [applyVerdicts, hgathered.judged] at h
    split at h
    · rename_i hnone
      rw [List.isEmpty_iff.mp hnone]
      cases h
      exact ⟨{}, {}, rfl⟩
    · obtain ⟨⟨groups, after⟩, hafter, h⟩ := ok_of_bind h
      cases h
      exact ⟨_, _, hafter⟩
  obtain ⟨before, after, happly⟩ := happly
  rw [hgathered.environmentScored]
  exact graded_inLine happly

omit [LinearOrder R] [Scale R] in
theorem collectUpdate_gathered {update : UInt32}
    (h : collectUpdate config update selected = .ok collected) :
    Gathered (rolledOut config update selected) collected := by
  unfold collectUpdate at h
  split at h
  · cases h
  · obtain ⟨outcomes, houtcomes, h⟩ := ok_of_bind h
    cases h
    exact collect_gathered (forall₂_of_mapM houtcomes)

/-- **The accounting of an update.** An update whose groups are collected and have their
verdicts settles: no counter goes below zero, every rollout went exactly one way and no
trajectory trains twice. The truncated members it puts back stand at the bottom of their own
group, with everyone else as they were, just when that group is the first to train under its
id. -/
theorem settleUpdate_accounts (config : AgentGrpoConfig) (update : UInt32)
    (selected : List (Selected τ R config.groupSize)) {collected : Collected τ R}
    {judged : List (TrajectoryGroup τ R)} {metrics : JudgeBatchMetrics}
    (hcollected : collectUpdate config update selected = .ok collected)
    (hjudged : applyVerdicts config collected = .ok (judged, metrics)) :
    ∃ settled, settleUpdate config update selected = .ok settled ∧
      Accounted config selected settled ∧
      (OwnFloors config (rolledOut config update selected) settled.groups ↔
        OwnFirst config (rolledOut config update selected)) := by
  have hgathered := collectUpdate_gathered hcollected
  obtain ⟨settled, haccount, hgroups, haccounted⟩ := account_accounted
    (rolledOut_drew update selected) hgathered (applyVerdicts_graded hgathered hjudged)
  refine ⟨settled, ?_, haccounted, ?_⟩
  · rw [settleUpdate, hcollected]
    change (applyVerdicts config collected >>= _) = _
    rw [hjudged]
    exact haccount
  · rw [hgroups, trainedGroups]
    split
    · rename_i hpolicy
      exact ownFloors_iff hpolicy rfl
    · rename_i hpolicy
      refine iff_of_true ?_ fun h => absurd h hpolicy
      rw [OwnFloors, List.forall₂_map_right_iff]
      refine List.forall₂_same.mpr fun entry _ => ?_
      rw [if_neg hpolicy]
      exact ⟨rfl, [], by simp, rfl, by simp⟩

end Settling

/-! ### Two groups under one id -/

/-- Three rollouts for each scenario, with truncated members kept at the bottom of their
group. -/
def threesomes : AgentGrpoConfig where
  groupSize := 3
  seed := 13
  judgeFailure := .dropGroup
  maxDroppedFraction := 1
  dropDegenerateGroups := false
  skipEmptyUpdates := false
  truncation := .minReward

/-- A scenario whose environment graded two rollouts, the third being cut short. -/
def gradedScenario (scenarioId : String) (first : ℕ) (a b : ℚ) : Selected ℕ ℚ threesomes.groupSize where
  scenarioId
  rollouts := .ok
    ⟨[.ok ⟨first, [], some a, false, none⟩, .ok ⟨first + 1, [], some b, false, none⟩,
      .ok ⟨first + 2, [], some 0, true, none⟩], rfl⟩
  reward := none

theorem settleUpdate_accounts_graded : ∃ settled,
    settleUpdate threesomes 0 [gradedScenario "easy" 0 1 (1 / 2), gradedScenario "hard" 3 (1 / 4) 0] = .ok settled ∧
      Accounted threesomes [gradedScenario "easy" 0 1 (1 / 2), gradedScenario "hard" 3 (1 / 4) 0] settled ∧
      (OwnFloors threesomes
          (rolledOut threesomes 0 [gradedScenario "easy" 0 1 (1 / 2), gradedScenario "hard" 3 (1 / 4) 0])
          settled.groups ↔
        OwnFirst threesomes
          (rolledOut threesomes 0 [gradedScenario "easy" 0 1 (1 / 2), gradedScenario "hard" 3 (1 / 4) 0])) :=
  settleUpdate_accounts threesomes 0 _ rfl rfl

/-- Every group that trains is as large as its own members make it. -/
theorem OwnFloors.sizes [AddCommGroup R] [LinearOrder R] [Scale R] {config : AgentGrpoConfig}
    {drawn : List (Drawn τ R)} {groups : List (TrajectoryGroup τ R)}
    (h : OwnFloors config drawn groups) :
    groups.map (fun group => group.trajectories.length) =
      (inLine config.dropDegenerateGroups drawn).map fun entry => entry.2.trajectories.length +
        (if config.truncation = .minReward then cutOf drawn entry.1 else []).length := by
  have hsizes : Forall₂ (· = ·)
      ((inLine config.dropDegenerateGroups drawn).map fun entry => entry.2.trajectories.length +
        (if config.truncation = .minReward then cutOf drawn entry.1 else []).length)
      (groups.map fun group => group.trajectories.length) := by
    rw [forall₂_map_left_iff, forall₂_map_right_iff]
    refine h.imp fun entry group hfloored => ?_
    obtain ⟨restored, hmembers, hown, -⟩ := hfloored.members
    have hlength := congrArg List.length hown
    rw [length_map, length_map] at hlength
    rw [hmembers, length_append, hlength]
  rw [forall₂_eq_eq_eq] at hsizes
  exact hsizes.symm

/-- The two scenarios get one id under the seeds of an update, and the member cut short in the
second trains in the first, under its floor. -/
theorem collision_trains_elsewhere :
    stableGroupId "6a5x-VbtX" (threesomes.groupSeed 0 0) =
        stableGroupId "f_2k7GG-4" (threesomes.groupSeed 0 1) ∧
      ∃ settled, settleUpdate threesomes 0 [gradedScenario "6a5x-VbtX" 0 1 (1 / 2),
          gradedScenario "f_2k7GG-4" 3 (1 / 4) 0] = .ok settled ∧
        settled.groups.map (fun group => group.trajectories.map fun trajectory =>
          (trajectory.content, totalReward trajectory)) =
            [[(0, 1), (1, 1 / 2), (2, 1 / 2), (5, 1 / 2)], [(3, 1 / 4), (4, 0)]] ∧
        ¬ OwnFloors threesomes (rolledOut threesomes 0 [gradedScenario "6a5x-VbtX" 0 1 (1 / 2),
          gradedScenario "f_2k7GG-4" 3 (1 / 4) 0]) settled.groups := by
  refine ⟨by decide +kernel, ?_⟩
  have hgroups : (settleUpdate threesomes 0 [gradedScenario "6a5x-VbtX" 0 1 (1 / 2),
      gradedScenario "f_2k7GG-4" 3 (1 / 4) 0]).toOption.map (fun settled =>
        settled.groups.map fun group => group.trajectories.map fun trajectory =>
          (trajectory.content, totalReward trajectory)) =
        some [[(0, 1), (1, 1 / 2), (2, 1 / 2), (5, 1 / 2)], [(3, 1 / 4), (4, 0)]] := by
    decide +kernel
  cases hsettled : settleUpdate threesomes 0 [gradedScenario "6a5x-VbtX" 0 1 (1 / 2),
      gradedScenario "f_2k7GG-4" 3 (1 / 4) 0] with
  | error error =>
    rw [hsettled] at hgroups
    cases hgroups
  | ok settled =>
    rw [hsettled] at hgroups
    have htrained := Option.some.inj hgroups
    refine ⟨settled, rfl, htrained, fun hfloors => ?_⟩
    have hsizes : settled.groups.map (fun group => group.trajectories.length) = [4, 2] := by
      simpa [Function.comp_def] using congrArg (List.map List.length) htrained
    rw [hfloors.sizes] at hsizes
    revert hsizes
    decide +kernel

end Retrograd.Agent.Grpo
