import Retrograd.Training.Outside
import Retrograd.Logic.Except

/-!
# Judging groups

A judge scores a whole group at a time: `applyGroupScores` validates each answer, applies the
failure policy and writes the verdicts into the group's trajectories. A group is scored **in
full or not at all** (`applyGroupScores_spec`), which is what lets the batch treat a group with
one missing verdict as dropped. `JudgeTally` sums an update's waves, the scale its failure
threshold is written on.
-/

namespace Retrograd.Training

open Logic List

/-- The counts of one judged batch of groups. -/
structure JudgeBatchCounts where
  groups : ℕ := 0
  scoredGroups : ℕ := 0
  droppedGroups : ℕ := 0
  degenerateGroups : ℕ := 0
  invalidScores : ℕ := 0
  totalScores : ℕ := 0

/-- What judging one batch came to. Groups the judge scored but the caller asked to drop are
counted apart until the batch is over: they are no judge failure. -/
structure JudgeBatchMetrics where
  lastError : Option String := none
  counts : JudgeBatchCounts := {}
  degenerateDropped : ℕ := 0

/-- Whether all scores of a group are the same. -/
def isDegenerate (scores : List Score) : Bool :=
  match scores with
  | [] => true
  | first :: rest => rest.all fun score => (score.value - first.value).abs ≤ f32Epsilon

/-- A group's answer that can be attached: one valid score in `[0, 1]` for every member. -/
def acceptable (group : TrajectoryGroup) (scores : List Score) : Bool :=
  scores.length = group.trajectories.length && scores.all fun score =>
    score.valid && score.value.isFinite && (0 ≤ score.value && score.value ≤ 1)

/-- Writes a group's verdicts into its trajectories; an explanation replaces the earlier one
only when there is one. -/
def TrajectoryGroup.attach (group : TrajectoryGroup) (scores : List Score) : TrajectoryGroup :=
  { group with
    trajectories := group.trajectories.zipWith (fun trajectory score =>
      { trajectory with
        reward := some score.value
        explanation := score.explanation <|> trajectory.explanation }) scores }

/-- Applies one group's answer: the group as it leaves, and the counts with it in. -/
def applyGroupScore (failure : JudgeFailurePolicy) (dropDegenerate : Bool)
    (metrics : JudgeBatchMetrics) (group : TrajectoryGroup)
    (result : Except String (List Score)) :
    Except Error (TrajectoryGroup × JudgeBatchMetrics) :=
  let counts := metrics.counts
  match result with
  | .ok scores =>
    if acceptable group scores then
      let counts := { counts with
        scoredGroups := counts.scoredGroups + 1
        degenerateGroups := counts.degenerateGroups + if isDegenerate scores then 1 else 0 }
      if isDegenerate scores && dropDegenerate then
        -- left unrewarded, like a group the judge failed on
        .ok (group, { metrics with counts, degenerateDropped := metrics.degenerateDropped + 1 })
      else .ok (group.attach scores, { metrics with counts })
    else
      let counts := { counts with
        invalidScores := counts.invalidScores + max (scores.countP fun score => !score.valid) 1
        droppedGroups := counts.droppedGroups + 1 }
      let message := s!"judge returned {scores.length} scores for the " ++
        s!"{group.trajectories.length} members of group '{group.scenarioId}', or scores " ++
        "outside [0, 1]"
      if failure = .fail then
        .error (.reward s!"judge returned invalid scores for group '{group.scenarioId}'")
      else .ok (group, { metrics with lastError := some message, counts })
  | .error message =>
    let counts := { counts with
      invalidScores := counts.invalidScores + group.trajectories.length
      droppedGroups := counts.droppedGroups + 1 }
    if failure = .fail then .error (.reward message)
    else .ok (group, { metrics with lastError := some message, counts })

/-- The groups one after the other, each with its own answer. -/
def applyEach (failure : JudgeFailurePolicy) (dropDegenerate : Bool) :
    List (TrajectoryGroup × Except String (List Score)) → JudgeBatchMetrics →
      Except Error (List TrajectoryGroup × JudgeBatchMetrics)
  | [], metrics => .ok ([], metrics)
  | (group, result) :: rest, metrics => do
    let (group, metrics) ← applyGroupScore failure dropDegenerate metrics group result
    let (groups, metrics) ← applyEach failure dropDegenerate rest metrics
    pure (group :: groups, metrics)

/-- Applies a batch of judge answers, one for each group. -/
def applyGroupScores (groups : List TrajectoryGroup)
    (results : List (Except String (List Score))) (failure : JudgeFailurePolicy)
    (maxDroppedFraction : Float32) (dropDegenerate : Bool) :
    Except Error (List TrajectoryGroup × JudgeBatchMetrics) :=
  if groups.isEmpty then
    throw (.invalidArgument "judge requires at least one trajectory group")
  else if !maxDroppedFraction.isFinite
      || !(0 ≤ maxDroppedFraction && maxDroppedFraction ≤ 1) then
    throw (.invalidArgument "max_dropped_fraction must be finite and in [0, 1]")
  else if results.length ≠ groups.length then
    throw (.invalidArgument "judge result count does not match trajectory group count")
  else do
    let totalScores := (groups.map fun group => group.trajectories.length).sum
    let (scored, metrics) ← applyEach failure dropDegenerate (groups.zip results)
      { counts := { groups := groups.length, totalScores } }
    let dropped := metrics.counts.droppedGroups
    if maxDroppedFraction < f32OfNat dropped / f32OfNat groups.length then
      throw (.reward "judge dropped more of its groups than the configured threshold")
    else
      let counts := { metrics.counts with droppedGroups := dropped + metrics.degenerateDropped }
      pure (scored, { metrics with counts })

/-- What one update's judging came to, summed over its sampling waves. -/
structure JudgeTally where
  counts : JudgeBatchCounts := {}
  values : List Float32 := []
  lastError : Option String := none

namespace JudgeTally

def merge (tally : JudgeTally) (metrics : JudgeBatchMetrics) (values : List Float32) :
    JudgeTally where
  counts :=
    { groups := tally.counts.groups + metrics.counts.groups
      scoredGroups := tally.counts.scoredGroups + metrics.counts.scoredGroups
      droppedGroups := tally.counts.droppedGroups + metrics.counts.droppedGroups
      degenerateGroups := tally.counts.degenerateGroups + metrics.counts.degenerateGroups
      invalidScores := tally.counts.invalidScores + metrics.counts.invalidScores
      totalScores := tally.counts.totalScores + metrics.counts.totalScores }
  values := tally.values ++ values
  lastError := metrics.lastError <|> tally.lastError

/-- Groups the judge lost, against what the document allows to lose. -/
def check (tally : JudgeTally) (maxDroppedFraction : Float32) : Except Error Unit :=
  if tally.counts.groups = 0 then .ok ()
  else if maxDroppedFraction
      < f32OfNat tally.counts.droppedGroups / f32OfNat tally.counts.groups then
    .error (.runtime "the judge dropped more of this update's groups than configured")
  else .ok ()

end JudgeTally

/-! ### Asking about sampled groups -/

structure ChatMessage where
  role : String
  content : String

/-- One prompt of the training file. -/
structure Prompt where
  messages : List ChatMessage
  rewardText : String
  rubric : Option String

/-- One rollout's judge output. -/
structure JudgeVerdict where
  value : Float32
  explanation : Option String

/-- One prompt and the completions sampled from it, as the judge will see them. -/
structure JudgeGroup where
  groupId : ℕ
  prompt : Prompt
  completions : List String

/-- The role a judged prompt's message may carry. -/
def judgedRole (role : String) : Except Error Role :=
  match role with
  | "system" => .ok .system
  | "user" => .ok .user
  | "assistant" => .ok .assistant
  | other => .error (.invalidArgument s!"a judged prompt cannot carry a '{other}' message")

/-- One sampled group as a trajectory group: the prompt's messages with each completion as
the assistant's answer. -/
def trajectoryGroup (group : JudgeGroup) : Except Error TrajectoryGroup := do
  let scenarioId := s!"prompt-{group.groupId}"
  let context ← group.prompt.messages.mapM fun message => do
    let role ← judgedRole message.role
    pure (role, message.content)
  pure
    { groupId := group.groupId
      scenarioId
      trajectories := group.completions.map fun completion =>
        { scenarioId
          messages := context ++ [(Role.assistant, completion)]
          rubric := group.prompt.rubric
          reward := none
          explanation := none } }

/-- The verdict written into a trajectory, if the group was scored. -/
def JudgedTrajectory.verdict (trajectory : JudgedTrajectory) : Option JudgeVerdict :=
  trajectory.reward.map fun value => { value, explanation := trajectory.explanation }

/-- A judge in use: its failure policy and the default weight of its verdicts. -/
structure GroupJudge where
  failure : JudgeFailurePolicy
  weight : Float32

variable {σ : Type}

/-- Scores every group: one entry for every completion, flattened in group order. -/
def GroupJudge.score (judge : GroupJudge) (out : Outside σ) (groups : List JudgeGroup)
    (tally : JudgeTally) : OutM σ (List (Option JudgeVerdict) × JudgeTally) := do
  let trajectoryGroups ← check (groups.mapM trajectoryGroup)
  let results ← ask (out.scoreGroups trajectoryGroups)
  -- no threshold and no degenerate drop here: both are the whole update's affair
  let (scored, metrics) ← check (applyGroupScores trajectoryGroups results judge.failure 1 false)
  let verdicts := scored.flatMap fun group => group.trajectories.map JudgedTrajectory.verdict
  pure (verdicts, tally.merge metrics (verdicts.filterMap fun v => v.map JudgeVerdict.value))

/-! ### A group is scored in full or not at all -/

/-- What one answer does to its group: nothing, or a verdict for every member. -/
def ScoredWith (entry : TrajectoryGroup × Except String (List Score)) (after : TrajectoryGroup) :
    Prop :=
  after = entry.1 ∨ ∃ scores, entry.2 = .ok scores ∧
    scores.length = entry.1.trajectories.length ∧ after = entry.1.attach scores

variable {failure : JudgeFailurePolicy} {drop : Bool}

private theorem applyGroupScore_scored {metrics metrics' : JudgeBatchMetrics}
    {group after : TrajectoryGroup} {result : Except String (List Score)}
    (h : applyGroupScore failure drop metrics group result = .ok (after, metrics')) :
    ScoredWith (group, result) after := by
  cases result with
  | error message =>
    dsimp only [applyGroupScore] at h
    split at h
    · cases h
    · cases h; exact .inl rfl
  | ok scores =>
    dsimp only [applyGroupScore] at h
    split at h
    · next hok =>
      have hlen : scores.length = group.trajectories.length := by
        simp only [acceptable, Bool.and_eq_true, decide_eq_true_eq] at hok
        exact hok.1
      split at h
      · cases h; exact .inl rfl
      · cases h; exact .inr ⟨scores, rfl, hlen, rfl⟩
    · split at h
      · cases h
      · cases h; exact .inl rfl

private theorem applyEach_scored {entries : List (TrajectoryGroup × Except String (List Score))}
    {metrics metrics' : JudgeBatchMetrics} {scored : List TrajectoryGroup}
    (h : applyEach failure drop entries metrics = .ok (scored, metrics')) :
    Forall₂ ScoredWith entries scored := by
  induction entries generalizing metrics metrics' scored with
  | nil => cases h; exact .nil
  | cons entry rest ih =>
    obtain ⟨⟨after, mid⟩, hfirst, h⟩ := ok_of_bind h
    obtain ⟨⟨others, last⟩, hrest, h⟩ := ok_of_bind h
    cases h
    exact .cons (applyGroupScore_scored hfirst) (ih hrest)

/-- Applying a batch of answers: every group leaves as it came or with all its verdicts. -/
theorem applyGroupScores_spec {groups : List TrajectoryGroup}
    {results : List (Except String (List Score))} {maxDropped : Float32}
    {scored : List TrajectoryGroup} {metrics : JudgeBatchMetrics}
    (h : applyGroupScores groups results failure maxDropped drop = .ok (scored, metrics)) :
    results.length = groups.length ∧ Forall₂ ScoredWith (groups.zip results) scored := by
  unfold applyGroupScores at h
  split at h
  · cases h
  · split at h
    · cases h
    · split at h
      · cases h
      · next hlen =>
        obtain ⟨⟨after, mid⟩, heach, h⟩ := ok_of_bind h
        dsimp only at h
        split at h
        · cases h
        · cases h
          exact ⟨by simpa using hlen, applyEach_scored heach⟩

/-- The verdicts of one group are the judge's answer for exactly its completions. -/
def Answered (out : Outside σ) (group : JudgeGroup) (block : List (Option JudgeVerdict)) : Prop :=
  ∃ (asked : List TrajectoryGroup) (results : List (Except String (List Score))) (s s' : σ) (k : ℕ)
    (trajectories : TrajectoryGroup) (scores : List Score),
    out.scoreGroups asked s = (.ok results, s') ∧ asked[k]? = some trajectories ∧
    trajectoryGroup group = .ok trajectories ∧ results[k]? = some (.ok scores) ∧
    block = scores.map fun score => some ⟨score.value, score.explanation⟩

/-- The verdicts of one group: none for every member, or the judge's answer. -/
structure VerdictBlock (out : Outside σ) (group : JudgeGroup)
    (block : List (Option JudgeVerdict)) : Prop where
  length : block.length = group.completions.length
  source : block = List.replicate group.completions.length none ∨ Answered out group block

private theorem trajectoryGroup_fresh {group : JudgeGroup} {trajectories : TrajectoryGroup}
    (h : trajectoryGroup group = .ok trajectories) :
    trajectories.trajectories.length = group.completions.length ∧
    ∀ t ∈ trajectories.trajectories, t.reward = none ∧ t.explanation = none := by
  obtain ⟨context, -, h⟩ := ok_of_bind h
  cases h
  refine ⟨length_map .., fun t ht => ?_⟩
  obtain ⟨completion, -, rfl⟩ := mem_map.mp ht
  exact ⟨rfl, rfl⟩

private theorem attach_verdicts {group : TrajectoryGroup} {scores : List Score}
    (hlen : scores.length = group.trajectories.length)
    (hfresh : ∀ t ∈ group.trajectories, t.reward = none ∧ t.explanation = none) :
    (group.attach scores).trajectories.map JudgedTrajectory.verdict =
      scores.map fun score => some ⟨score.value, score.explanation⟩ := by
  refine ext_getElem (by simp [TrajectoryGroup.attach, hlen]) fun i hi hi' => ?_
  have hlt : i < group.trajectories.length := by simpa [hlen] using hi'
  have hscored : i < scores.length := hlen ▸ hlt
  have h := hfresh _ (getElem_mem hlt)
  cases hexp : scores[i].explanation <;>
    simp [TrajectoryGroup.attach, JudgedTrajectory.verdict, h.2, hexp]

/-- The judge returns one block of verdicts for every group it was asked about. -/
theorem GroupJudge.score_returns {judge : GroupJudge} {out : Outside σ}
    {groups : List JudgeGroup} {tally : JudgeTally} :
    Returns (judge.score out groups tally) fun result =>
      ∃ blocks, result.1 = blocks.flatten ∧ Forall₂ (VerdictBlock out) groups blocks := by
  refine (returns_check fun trajectories h => h).bind fun trajectories htrajectories => ?_
  have hgroups := forall₂_of_mapM htrajectories
  refine Returns.bind (P := fun results => ∃ s s', out.scoreGroups trajectories s =
    (.ok results, s')) (fun s => wp_intro (fun results s' h => ?_) fun _ _ _ => trivial)
    fun results ⟨s, s', hcall⟩ => ?_
  · unfold ask at h
    split at h
    · next hcall => cases h; exact ⟨s, _, hcall⟩
    · cases h
  refine (returns_check fun scored h => h).bind fun ⟨scored, metrics⟩ hscored => ?_
  obtain ⟨hlen, hall⟩ := applyGroupScores_spec hscored
  refine Returns.pure ⟨scored.map fun group => group.trajectories.map JudgedTrajectory.verdict,
    flatMap_def .., ?_⟩
  refine forall₂_iff_get.mpr ⟨?_, fun k hk hk' => ?_⟩
  · have h := hall.length_eq
    rw [length_zip] at h
    have h' := hgroups.length_eq
    rw [length_map]
    omega
  · have hk'' : k < scored.length := by simpa using hk'
    obtain ⟨entry, hentry, hwith⟩ := forall₂_getElem? hall (getElem?_eq_getElem hk'')
    obtain ⟨htrajectory, hresult⟩ := getElem?_zip_eq_some.mp hentry
    obtain ⟨group, hgroup, hmade⟩ := forall₂_getElem? hgroups htrajectory
    obtain rfl : groups[k] = group :=
      Option.some.inj ((getElem?_eq_getElem hk).symm.trans hgroup)
    obtain ⟨hmembers, hfresh⟩ := trajectoryGroup_fresh hmade
    simp only [get_eq_getElem, getElem_map]
    rcases hwith with hsame | ⟨scores, hok, hcount, hattach⟩
    · rw [hsame]
      have hnone : entry.1.trajectories.map JudgedTrajectory.verdict =
          List.replicate groups[k].completions.length none := by
        rw [← hmembers]
        refine eq_replicate_iff.mpr ⟨length_map .., fun v hv => ?_⟩
        obtain ⟨t, ht, rfl⟩ := mem_map.mp hv
        rw [JudgedTrajectory.verdict, (hfresh t ht).1]
        rfl
      exact ⟨by rw [hnone, length_replicate], .inl hnone⟩
    · rw [hattach]
      have hverdicts := attach_verdicts hcount hfresh
      exact ⟨by rw [hverdicts, length_map, hcount, hmembers],
        .inr ⟨trajectories, results, s, s', k, entry.1, scores, hcall, htrajectory, hmade,
          hok ▸ hresult, hverdicts⟩⟩

end Retrograd.Training
