import Retrograd.Agent.Update

/-!
# What becomes of each group of an update

A group is graded without regard to the others: `Drawn.graded` says from the group and the
judge's answer about it alone whether it trains, and with which rewards. The passes of an update
only put the groups in **line**, those the judge scored ahead of those their environment did
(`graded_line`), and gather what was withheld (`collectUpdate_spec`).
-/

namespace Retrograd.Agent.Grpo

open Logic List Option
open Training (JudgeFailurePolicy)

variable {τ R : Type}

/-! ### One group -/

/-- A group as it was rolled out, with the judge's answer about it. -/
abbrev Drawn (τ R : Type) := GroupOutcome τ R × Option (Except Error (Verdict R))

namespace Drawn

/-- The members that came back cut short. -/
def cut (drawn : Drawn τ R) : List (Trajectory τ R) :=
  drawn.1.group.toList.flatMap fun group => group.cut.1

/-- The members that came back whole. -/
def whole (drawn : Drawn τ R) : List (Trajectory τ R) :=
  drawn.1.group.toList.flatMap fun group => group.cut.2

/-- The group without its truncated members, where two or more are left. -/
def kept (drawn : Drawn τ R) : Option (TrajectoryGroup τ R) :=
  drawn.1.group.bind fun group =>
    if 2 ≤ group.cut.2.length then some { group with trajectories := group.cut.2 } else none

/-- Whether the environment left the grading to the judge. -/
def isJudged (drawn : Drawn τ R) : Bool :=
  drawn.kept.any fun group => group.trajectories.any fun trajectory => trajectory.reward.isNone

/-- What the judge says about the group. -/
def verdict (drawn : Drawn τ R) : Verdict R :=
  match drawn.2 with
  | none => .error unjudged
  | some (.ok verdict) => verdict
  | some (.error error) => .error error

/-- A group with the scores of a verdict, where they can be attached. -/
def apply [Scale R] (dropDegenerate : Bool) (group : TrajectoryGroup τ R) (verdict : Verdict R) :
    Option (TrajectoryGroup τ R) :=
  match verdict with
  | .ok scores =>
    if acceptable group scores && !(isDegenerate scores && dropDegenerate) then
      some (group.attach scores)
    else none
  | .error _ => none

/-- The group with all its rewards, where it trains. -/
def graded [Scale R] (dropDegenerate : Bool) (drawn : Drawn τ R) :
    Option (TrajectoryGroup τ R) :=
  drawn.kept.bind fun group =>
    if drawn.isJudged then apply dropDegenerate group drawn.verdict else some group

/-- The members to put back, under their group's id. -/
def withheld (drawn : Drawn τ R) : Option (UInt64 × List (Trajectory τ R)) :=
  drawn.1.group.bind fun group =>
    if group.cut.1.isEmpty then none else some (group.groupId, group.cut.1)

/-- The group as the judge gets it. -/
def sent (drawn : Drawn τ R) : Option (TrajectoryGroup τ R × Verdict R) :=
  if drawn.isJudged then drawn.kept.map (·, drawn.verdict) else none

/-- The group as its environment graded it. -/
def environmentScored (drawn : Drawn τ R) : Option (TrajectoryGroup τ R) :=
  if drawn.isJudged then none else drawn.kept

theorem cut_eq {drawn : Drawn τ R} {group : TrajectoryGroup τ R}
    (h : drawn.1.group = some group) : drawn.cut = group.cut.1 := by
  simp [cut, h]

theorem kept_eq_some {drawn : Drawn τ R} {group : TrajectoryGroup τ R}
    (h : drawn.kept = some group) : ∃ drew, drawn.1.group = some drew ∧
      2 ≤ drew.cut.2.length ∧ group = { drew with trajectories := drew.cut.2 } := by
  obtain ⟨drew, hdrew, h⟩ := bind_eq_some_iff.mp h
  split at h
  · rename_i htwo
    exact ⟨drew, hdrew, htwo, (some.inj h).symm⟩
  · cases h

theorem withhold_toList (drawn : Drawn τ R) :
    withholdTruncatedMembers drawn.1.group.toList = (drawn.kept.toList, drawn.withheld.toList) := by
  cases hgroup : drawn.1.group with
  | none => simp [withholdTruncatedMembers, kept, withheld, hgroup]
  | some group =>
    simp only [withholdTruncatedMembers, kept, withheld, hgroup, toList_some,
      map_cons, map_nil, bind_some, filterMap_cons, filterMap_nil,
      filter_cons, filter_nil, decide_eq_true_eq]
    by_cases hcut : group.cut.1.isEmpty
    · simp only [hcut, if_true]
      split <;> rfl
    · simp only [hcut]
      split <;> rfl

theorem split_kept (drawn : Drawn τ R) :
    splitEnvironmentScored drawn.kept.toList =
      (if drawn.isJudged then drawn.kept.toList else [],
        if drawn.isJudged then [] else drawn.kept.toList) := by
  cases hkept : drawn.kept with
  | none => simp [splitEnvironmentScored, isJudged, hkept]
  | some group =>
    by_cases h : group.trajectories.any fun trajectory => trajectory.reward.isNone
    · simp [splitEnvironmentScored, isJudged, hkept, h]
    · simp [splitEnvironmentScored, isJudged, hkept, h]

/-- What scoring one group comes to. -/
theorem scoreGroup_ok {drawn : Drawn τ R} {scoring : GroupScoring τ R}
    (h : scoreGroup drawn.1.group drawn.2 = .ok scoring) :
    scoring.withheld = drawn.withheld.toList ∧
      scoring.judged = drawn.sent ∧ scoring.environmentScored = drawn.environmentScored := by
  rw [scoreGroup, withhold_toList] at h
  dsimp only at h
  rw [split_kept] at h
  cases hkept : drawn.kept with
  | none =>
    rw [hkept] at h
    have hjudged : drawn.isJudged = false := by simp [isJudged, hkept]
    simp only [hjudged, toList_none] at h
    cases h
    simp [sent, environmentScored, hjudged, hkept]
  | some group =>
    rw [hkept] at h
    by_cases hjudged : drawn.isJudged
    · simp only [hjudged, if_true, toList_some] at h
      cases hreward : drawn.2 with
      | none =>
        rw [hreward] at h
        cases h
        simp [sent, environmentScored, hjudged, hkept, verdict, hreward]
      | some answer =>
        rw [hreward] at h
        obtain ⟨verdict, hverdict, h⟩ := ok_of_bind h
        cases h
        simp [sent, environmentScored, hjudged, hkept, Drawn.verdict, hreward, hverdict]
    · rw [Bool.not_eq_true] at hjudged
      simp only [hjudged, toList_some] at h
      cases h
      simp [sent, environmentScored, hjudged, hkept]

theorem truncated_eq (drawn : Drawn τ R) :
    ((drawn.1.group.toList.flatMap TrajectoryGroup.trajectories).countP fun trajectory =>
      trajectory.truncated) = drawn.cut.length := by
  simp [cut, TrajectoryGroup.cut, countP_eq_length_filter, filter_flatMap,
    partition_eq_filter_filter]

end Drawn

/-! ### The groups gathered -/

/-- What collecting knows of the groups it went through. -/
structure Gathered (drawn : List (Drawn τ R)) (collected : Collected τ R) : Prop where
  attempted : collected.attempted = (drawn.map fun d => d.1.attempted).sum
  failed : collected.failures.total = (drawn.map fun d => d.1.failures.total).sum
  truncated : collected.breakdown.truncated = (drawn.map fun d => d.cut.length).sum
  withheld : collected.withheld = drawn.filterMap Drawn.withheld
  judged : collected.judged = drawn.filterMap Drawn.sent
  environmentScored : collected.environmentScored = drawn.filterMap Drawn.environmentScored

theorem RolloutFailures.total_merge (failures more : RolloutFailures) :
    (failures.merge more).total = failures.total + more.total := by
  simp only [RolloutFailures.merge, RolloutFailures.total]
  omega

private theorem filterMap_singleton {α β : Type} (f : α → Option β) (a : α) :
    [a].filterMap f = (f a).toList := by
  cases h : f a <;> simp [h]

theorem Gathered.add {drawn : List (Drawn τ R)} {collected : Collected τ R} {next : Drawn τ R}
    {outcome : CollectedGroup τ R} (h : Gathered drawn collected)
    (hnext : collectAndStartJudge next.1 next.2 = .ok outcome) :
    Gathered (drawn ++ [next]) (collected.add outcome) := by
  obtain ⟨scoring, hscoring, hout⟩ := ok_of_bind hnext
  cases hout
  obtain ⟨hwithheld, hjudged, henvironment⟩ := Drawn.scoreGroup_ok hscoring
  constructor
  · simp [Collected.add, h.attempted]
  · simp [Collected.add, RolloutFailures.total_merge, h.failed]
  · simp [Collected.add, h.truncated, Drawn.truncated_eq]
  · simp [Collected.add, h.withheld, hwithheld, filterMap_singleton]
  · simp [Collected.add, h.judged, hjudged, filterMap_singleton]
  · simp [Collected.add, h.environmentScored, henvironment, filterMap_singleton]

theorem collect_gathered {drawn : List (Drawn τ R)} {outcomes : List (CollectedGroup τ R)}
    (h : Forall₂ (fun d outcome => collectAndStartJudge d.1 d.2 = .ok outcome)
      drawn outcomes) : Gathered drawn (collect outcomes) := by
  have hfold : ∀ (done : List (Drawn τ R)) (collected : Collected τ R), Gathered done collected →
      Gathered (done ++ drawn) (outcomes.foldl Collected.add collected) := by
    induction h with
    | nil => exact fun done collected hdone => by simpa using hdone
    | cons hnext _ ih =>
      intro done collected hdone
      have := ih _ _ (hdone.add hnext)
      simpa using this
  exact hfold [] {} ⟨rfl, rfl, rfl, rfl, rfl, rfl⟩

/-! ### The groups in line -/

/-- Every member has its reward. -/
def TrajectoryGroup.complete (group : TrajectoryGroup τ R) : Bool :=
  group.trajectories.all fun trajectory => trajectory.reward.isSome

/-- A kept group goes to the judge when a reward is missing. -/
theorem isJudged_eq {drawn : Drawn τ R} {group : TrajectoryGroup τ R}
    (h : drawn.kept = some group) : drawn.isJudged = !group.complete := by
  simp [Drawn.isJudged, TrajectoryGroup.complete, h, not_all_eq_any_not]

section Judged

variable [Scale R]

omit [Scale R] in
theorem attach_complete (group : TrajectoryGroup τ R) (scores : List (Score R)) :
    (group.attach scores).complete = true := by
  refine List.all_eq_true.mpr fun trajectory hmem => ?_
  obtain ⟨i, hi, rfl⟩ := getElem_of_mem hmem
  simp [TrajectoryGroup.attach, Trajectory.attach]

variable {failure : JudgeFailurePolicy} {metrics metrics' : JudgeBatchMetrics}

/-- A group the judge answered about is complete just when its answer could be attached. -/
theorem applyGroupScore_ok {drop : Bool} {group after : TrajectoryGroup τ R} {verdict : Verdict R}
    (hbare : group.complete = false)
    (h : applyGroupScore failure drop metrics group verdict = .ok (after, metrics')) :
    (if after.complete then some after else none) = Drawn.apply drop group verdict := by
  unfold applyGroupScore at h
  cases verdict with
  | error error =>
    dsimp only at h
    split at h
    · cases h
    · cases h
      simp [Drawn.apply, hbare]
  | ok scores =>
    dsimp only at h
    by_cases hacceptable : acceptable group scores
    · rw [if_pos hacceptable] at h
      by_cases hdrop : (isDegenerate scores && drop) = true
      · rw [if_pos hdrop] at h
        cases h
        simp only [Drawn.apply, hbare, hdrop, Bool.not_true, Bool.and_false]
        rfl
      · rw [if_neg hdrop] at h
        cases h
        rw [Bool.not_eq_true] at hdrop
        simp [Drawn.apply, hacceptable, hdrop, attach_complete]
    · rw [if_neg hacceptable] at h
      split at h
      · cases h
      · cases h
        simp [Drawn.apply, hbare, hacceptable]

theorem applyEach_ok {drop : Bool} {judged : List (TrajectoryGroup τ R × Verdict R)}
    {groups : List (TrajectoryGroup τ R)} (hbare : ∀ entry ∈ judged, entry.1.complete = false)
    (h : applyEach failure drop judged metrics = .ok (groups, metrics')) :
    groups.filter TrajectoryGroup.complete =
      judged.filterMap fun entry => Drawn.apply drop entry.1 entry.2 := by
  induction judged generalizing metrics groups with
  | nil => cases h; rfl
  | cons entry rest ih =>
    obtain ⟨⟨after, mid⟩, hafter, h⟩ := ok_of_bind h
    obtain ⟨⟨others, final⟩, hothers, h⟩ := ok_of_bind h
    cases h
    rw [forall_mem_cons] at hbare
    rw [filterMap_cons, ← applyGroupScore_ok hbare.1 hafter, filter_cons,
      ih hbare.2 hothers]
    split <;> rfl

variable (drop : Bool)

/-- The groups that train, each with its place among those rolled out: the ones the judge scored
first, then those their environment did. -/
def inLine (drawn : List (Drawn τ R)) : List (ℕ × TrajectoryGroup τ R) :=
  (drawn.zipIdx.filter (fun entry => entry.1.isJudged) ++
    drawn.zipIdx.filter fun entry => !entry.1.isJudged).filterMap fun entry =>
      (entry.1.graded drop).map (entry.2, ·)

variable {drop} {drawn : List (Drawn τ R)}

omit [Scale R] in
private theorem environmentScored_complete {d : Drawn τ R} {group : TrajectoryGroup τ R}
    (h : d.environmentScored = some group) : group.complete = true := by
  unfold Drawn.environmentScored at h
  split at h
  · cases h
  · rename_i hjudged
    simpa [isJudged_eq h] using hjudged

omit [Scale R] in
private theorem sent_bare {d : Drawn τ R} {entry : TrajectoryGroup τ R × Verdict R}
    (h : d.sent = some entry) : entry.1.complete = false := by
  unfold Drawn.sent at h
  split at h
  · rename_i hjudged
    obtain ⟨group, hkept, rfl⟩ := map_eq_some_iff.mp h
    simpa [isJudged_eq hkept] using hjudged
  · cases h

private theorem filterMap_zipIdx {α β : Type} (f : α → Option β) (p : α → Bool) (l : List α) :
    ((l.zipIdx.filter fun entry => p entry.1).filterMap fun entry =>
      (f entry.1).map (entry.2, ·)).map Prod.snd =
        l.filterMap fun a => if p a then f a else none := by
  rw [filterMap_filter, map_filterMap]
  conv_rhs => rw [← zipIdx_map_fst 0 l, filterMap_map]
  refine filterMap_congr fun entry _ => ?_
  by_cases h : p entry.1 <;> simp [h, Function.comp_def]

/-- What is left of the graded groups of an update stands in line. -/
theorem graded_inLine {groups : List (TrajectoryGroup τ R)}
    (h : applyEach failure drop (drawn.filterMap Drawn.sent) metrics = .ok (groups, metrics')) :
    (groups ++ drawn.filterMap Drawn.environmentScored).filter TrajectoryGroup.complete =
      (inLine drop drawn).map Prod.snd := by
  have hbare : ∀ entry ∈ drawn.filterMap Drawn.sent, entry.1.complete = false := by
    intro entry hmem
    obtain ⟨d, -, hd⟩ := mem_filterMap.mp hmem
    exact sent_bare hd
  have hgraded : ∀ group ∈ drawn.filterMap Drawn.environmentScored, group.complete = true := by
    intro group hmem
    obtain ⟨d, -, hd⟩ := mem_filterMap.mp hmem
    exact environmentScored_complete hd
  rw [filter_append, applyEach_ok hbare h, filter_eq_self.mpr hgraded,
    filterMap_filterMap, inLine, filterMap_append, map_append,
    filterMap_zipIdx (Drawn.graded drop) Drawn.isJudged,
    filterMap_zipIdx (Drawn.graded drop) fun d => !d.isJudged]
  congr 1
  · refine filterMap_congr fun d _ => ?_
    by_cases hjudged : d.isJudged
    · cases hkept : d.kept <;> simp [Drawn.sent, Drawn.graded, hjudged, hkept]
    · simp [Drawn.sent, hjudged]
  · refine filterMap_congr fun d _ => ?_
    by_cases hjudged : d.isJudged
    · simp [Drawn.environmentScored, hjudged]
    · cases hkept : d.kept <;> simp [Drawn.environmentScored, Drawn.graded, hjudged, hkept]

end Judged

end Retrograd.Agent.Grpo
