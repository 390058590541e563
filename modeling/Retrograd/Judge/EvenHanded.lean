import Retrograd.Judge.Roles

/-!
# Even-handed scores

What a pairwise run owes its trajectories whatever part of its comparisons fails: win rates in the
unit interval, no rating exactly for the trajectories nothing was heard of, the same ratings when
every pair is presented the other way round, and one half for everybody when the judge only looks
at the position.

The cases: a pair whose two presentations **both or neither** completed is treated alike from both
sides. A pair with its forward verdict alone is credited to it, and one with its swapped verdict
alone is dropped, so a single failure of that kind is enough to tell the sides apart.
-/

namespace Retrograd.Judge

open List Option

/-! ### What is owed -/

/-- Some comparison of a trajectory was asked and completed. -/
def HeardOf (bothOrders : Bool) (schedule : List (ℕ × ℕ)) (verdicts : Verdicts) (index : ℕ) : Prop :=
  ∃ pair ∈ schedule, (pair.1 = index ∨ pair.2 = index) ∧
    ∃ swapped, (swapped = true → bothOrders = true) ∧ (verdicts pair swapped).isSome

/-- Every completed comparison got the same answer, whoever was presented first. -/
def Positional (schedule : List (ℕ × ℕ)) (verdicts : Verdicts) : Prop :=
  ∃ winner, ∀ pair ∈ schedule, ∀ swapped verdict,
    verdicts pair swapped = some verdict → verdict.1 = winner

/-- The scores of one run, as they are owed. -/
structure EvenHanded (court : Court) (size : ℕ) (maxPairs : Option ℕ) (bothOrders : Bool) :
    Prop where
  fails : (scorePairwiseVia court size maxPairs bothOrders).toOption = none ↔
    ∀ index < size, ¬HeardOf bothOrders (pairSchedule size maxPairs) court.verdict index
  bounded : ∀ scores, scorePairwiseVia court size maxPairs bothOrders = .ok scores →
    scores.length = size ∧ ∀ score ∈ scores, 0 ≤ score.value ∧ score.value ≤ 1
  invalid : ∀ scores, scorePairwiseVia court size maxPairs bothOrders = .ok scores →
    ∀ index score, scores[index]? = some score → (score.valid = false ↔
      ¬HeardOf bothOrders (pairSchedule size maxPairs) court.verdict index)
  exchanged : ∀ other : Court, other.Filled →
    Exchanged bothOrders (pairSchedule size maxPairs) court.verdict other.verdict →
    ratings (scoreScheduled other size ((pairSchedule size maxPairs).map Prod.swap) bothOrders) =
      ratings (scorePairwiseVia court size maxPairs bothOrders)
  positional : bothOrders = true → Positional (pairSchedule size maxPairs) court.verdict →
    ∀ scores, scorePairwiseVia court size maxPairs bothOrders = .ok scores →
      ∀ score ∈ scores, score.valid = true → score.value = 1 / 2

/-- The comparisons of a run that complete, from the cache or from the judge. -/
def Court.Completes (court : Court) (schedule : List (ℕ × ℕ)) (bothOrders : Bool)
    (completed : ℕ × ℕ → Bool → Bool) : Prop :=
  ∀ pair ∈ schedule, ∀ swapped, (swapped = true → bothOrders = true) →
    (court.verdict pair swapped).isSome = completed pair swapped

/-- Every judge and every cache that leave exactly these comparisons completed score evenly. -/
def EvenHandedOn (size : ℕ) (maxPairs : Option ℕ) (bothOrders : Bool)
    (completed : ℕ × ℕ → Bool → Bool) : Prop :=
  ∀ court : Court, court.Filled →
    court.Completes (pairSchedule size maxPairs) bothOrders completed →
      EvenHanded court size maxPairs bothOrders

/-! ### The cache -/

/-- A stored verdict is read back. -/
theorem replay_verdictRow (verdict : Verdict) : replay (verdictRow verdict) = .ok verdict := by
  obtain ⟨winner, explanation⟩ := verdict
  cases winner <;> norm_num [replay, verdictRow]

/-! ### Both or neither -/

section BothOrNeither

variable {court : Court} {size : ℕ} {maxPairs : Option ℕ} {bothOrders : Bool}

theorem pairSchedule_ne_nil (h : 2 ≤ size) (maxPairs : Option ℕ) : pairSchedule size maxPairs ≠ [] := by
  intro hnil
  obtain ⟨pair, hpair, -⟩ := (pairSchedule_scheduled h maxPairs).everyone 0 (by omega)
  rw [hnil] at hpair
  exact not_mem_nil hpair

theorem pairSchedule_members (h : 2 ≤ size) (maxPairs : Option ℕ) :
    ∀ pair ∈ pairSchedule size maxPairs, pair.1 < size ∧ pair.2 < size := fun pair hpair =>
  have hmembers := (pairSchedule_scheduled h maxPairs).members pair hpair
  ⟨hmembers.1, hmembers.2.1⟩

/-- The ratings of a run are those of its table of verdicts. -/
theorem ratings_scorePairwiseVia (h : 2 ≤ size) (hfilled : court.Filled) :
    ratings (scorePairwiseVia court size maxPairs bothOrders) =
      if (outcomesOf bothOrders court.verdict (pairSchedule size maxPairs)).isEmpty then none
      else some ((List.range size).map
        (ratingOf (outcomesOf bothOrders court.verdict (pairSchedule size maxPairs)))) :=
  ratings_scoreScheduled hfilled (pairSchedule_ne_nil h maxPairs) (pairSchedule_members h maxPairs)
    bothOrders

/-- The scores of a run, read by trajectory. -/
theorem rating_of_ok (h : 2 ≤ size) (hfilled : court.Filled) {scores : List Score}
    (hok : scorePairwiseVia court size maxPairs bothOrders = .ok scores) :
    scores.map Score.rating = (List.range size).map
      (ratingOf (outcomesOf bothOrders court.verdict (pairSchedule size maxPairs))) := by
  have hratings := @ratings_scorePairwiseVia court size maxPairs bothOrders h hfilled
  rw [hok] at hratings
  split_ifs at hratings
  · cases hratings
  · exact some.inj hratings

variable {schedule : List (ℕ × ℕ)}

/-- A trajectory is without a match exactly when nothing was heard of it. -/
theorem matchCount_outcomesOf {verdicts : Verdicts}
    (hcomplete : bothOrders = true → ∀ pair ∈ schedule, (verdicts pair false).isSome = (verdicts pair true).isSome)
    (index : ℕ) : matchCount (outcomesOf bothOrders verdicts schedule) index = 0 ↔
      ¬HeardOf bothOrders schedule verdicts index := by
  rw [matchCount_eq_zero]
  constructor
  · rintro hnone ⟨pair, hpair, hindex, swapped, hasked, hsome⟩
    -- the forward verdict is there whichever of the two was heard
    have hforward : (verdicts pair false).isSome := by
      cases swapped with
      | false => exact hsome
      | true => rw [hcomplete (hasked rfl) pair hpair]; exact hsome
    cases houtcome : pairOutcome bothOrders verdicts pair with
    | none => rw [pairOutcome_eq_none.mp houtcome] at hforward; cases hforward
    | some outcome =>
      obtain ⟨hleft, hright⟩ := pairOutcome_some houtcome
      have hnot := hnone outcome (mem_filterMap.mpr ⟨pair, hpair, houtcome⟩)
      rw [hleft, hright] at hnot
      exact hindex.elim hnot.1 hnot.2
  · intro hunheard outcome houtcome
    obtain ⟨pair, hpair, hsome⟩ := mem_filterMap.mp houtcome
    obtain ⟨hleft, hright⟩ := pairOutcome_some hsome
    have hforward : (verdicts pair false).isSome := by
      rw [isSome_iff_ne_none]
      intro hnone
      rw [pairOutcome_eq_none.mpr hnone] at hsome
      cases hsome
    rw [hleft, hright]
    constructor <;> intro hindex
    · exact hunheard ⟨pair, hpair, .inl hindex, false, by simp, hforward⟩
    · exact hunheard ⟨pair, hpair, .inr hindex, false, by simp, hforward⟩

/-- Answers by position cancel out. -/
theorem outcomes_positional {verdicts : Verdicts}
    (hcomplete : ∀ pair ∈ schedule, (verdicts pair false).isSome = (verdicts pair true).isSome)
    (h : Positional schedule verdicts) :
    ∀ outcome ∈ outcomesOf true verdicts schedule, outcome.winner = .tie := by
  obtain ⟨winner, hwinner⟩ := h
  intro outcome houtcome
  obtain ⟨pair, hpair, hsome⟩ := mem_filterMap.mp houtcome
  cases hforward : verdicts pair false with
  | none =>
    rw [pairOutcome_eq_none.mpr hforward] at hsome
    cases hsome
  | some forward =>
    obtain ⟨swapped, hswapped⟩ : ∃ swapped, verdicts pair true = some swapped := by
      have := hcomplete pair hpair
      rw [hforward] at this
      exact isSome_iff_exists.mp this.symm
    obtain ⟨_, hboth⟩ := pairOutcome_both hforward hswapped
    rw [hboth] at hsome
    obtain rfl := some.inj hsome
    dsimp only
    rw [hwinner pair hpair false forward hforward, hwinner pair hpair true swapped hswapped]
    cases winner <;> rfl

/-- **Enough.** A run whose pairs were each heard from both sides or from neither is even. -/
theorem evenHanded_of_complete (h : 2 ≤ size) (hfilled : court.Filled)
    (hcomplete : bothOrders = true → ∀ pair ∈ pairSchedule size maxPairs,
      (court.verdict pair false).isSome = (court.verdict pair true).isSome) :
    EvenHanded court size maxPairs bothOrders := by
  have hnonempty := pairSchedule_ne_nil h maxPairs
  have hmembers := pairSchedule_members h maxPairs
  have hread {scores : List Score}
      (hok : scorePairwiseVia court size maxPairs bothOrders = .ok scores) {index : ℕ}
      {score : Score} (hscore : scores[index]? = some score) : score.rating =
        ratingOf (outcomesOf bothOrders court.verdict (pairSchedule size maxPairs)) index := by
    have hat := congrArg (·[index]?) (rating_of_ok h hfilled hok)
    simp only [getElem?_map, hscore, map_some] at hat
    obtain ⟨other, hother, hrating⟩ := map_eq_some_iff.mp hat.symm
    obtain ⟨hlt, heq⟩ := List.getElem?_eq_some_iff.mp hother
    rw [getElem_range] at heq
    rw [heq, hrating]
  refine ⟨?_, ?_, ?_, ?_, ?_⟩
  · rw [scorePairwiseVia, scoreScheduled_eq hfilled size hnonempty]
    constructor
    · intro hnone index _
      rw [← matchCount_outcomesOf hcomplete, matchCount_eq_zero]
      split_ifs at hnone with hempty
      rw [List.isEmpty_iff.mp hempty]
      simp
    · intro hunheard
      rw [if_pos]
      rw [List.isEmpty_iff, eq_nil_iff_forall_not_mem]
      intro outcome houtcome
      obtain ⟨pair, hpair, hsome⟩ := mem_filterMap.mp houtcome
      have hnone := (matchCount_outcomesOf hcomplete pair.1).mpr
        (hunheard pair.1 (hmembers pair hpair).1)
      exact (matchCount_eq_zero.mp hnone outcome houtcome).1 (pairOutcome_some hsome).1
  · intro scores hok
    have hratings := rating_of_ok h hfilled hok
    refine ⟨by simpa using congrArg List.length hratings, fun score hscore => ?_⟩
    obtain ⟨index, hat⟩ := mem_iff_getElem?.mp hscore
    have hvalue : score.value = _ := congrArg Prod.fst (hread hok hat)
    rw [hvalue]
    exact ratingOf_bounds _ _
  · intro scores hok index score hscore
    have hrating := congrArg Prod.snd (hread hok hscore)
    rw [← matchCount_outcomesOf hcomplete index, show score.valid = _ from hrating, ratingOf]
    split_ifs with hnone <;> simp [hnone]
  · intro other hother hexchanged
    exact ratings_exchanged hfilled hother hnonempty hmembers hexchanged hcomplete
  · rintro rfl hpositional scores hok score hscore hvalid
    obtain ⟨index, hat⟩ := mem_iff_getElem?.mp hscore
    have hrating := hread hok hat
    have hmatches : matchCount (outcomesOf true court.verdict (pairSchedule size maxPairs)) index ≠
        0 := by
      intro hnone
      rw [ratingOf, if_pos hnone] at hrating
      have : score.valid = false := congrArg Prod.snd hrating
      rw [hvalid] at this
      cases this
    have hhalf := (ratingOf_half hmatches).mpr
      (bias_ties (outcomes_positional (hcomplete rfl) hpositional) index)
    rw [← hrating] at hhalf
    exact hhalf

end BothOrNeither

/-! ### One side alone -/

/-- A judge with a table of verdicts and an empty cache. -/
def Court.ofTable (verdicts : Verdicts) : Court where
  key _ _ := ""
  cache _ := none
  complete comparison :=
    match verdicts (comparison.left, comparison.right) comparison.swapped with
    | some verdict => .ok verdict
    | none => .error (.reward "no verdict")
  store _ _ := .ok ()

theorem Court.filled_ofTable (verdicts : Verdicts) : (Court.ofTable verdicts).Filled := by
  intro key row hrow
  cases hrow

theorem Court.verdict_ofTable (verdicts : Verdicts) : (Court.ofTable verdicts).verdict = verdicts := by
  funext pair swapped
  simp only [verdict, verdictOf, judge, ofTable, planned]
  cases verdicts pair swapped <;> rfl

/-- The judge that calls every completed comparison a tie but one. -/
def oneWin (completed : ℕ × ℕ → Bool → Bool) (won : ℕ × ℕ) (order : Bool) : Verdicts :=
  fun pair swapped =>
    if completed pair swapped then some (if pair = won ∧ swapped = order then .a else .tie, "")
    else none

variable {pair : ℕ × ℕ}

/-- A pair whose verdicts are all ties is one. -/
theorem pairOutcome_tie {bothOrders : Bool} {verdicts : Verdicts}
    (h : ∀ swapped verdict, verdicts pair swapped = some verdict → verdict.1 = .tie)
    (outcome : PairOutcome) (hsome : pairOutcome bothOrders verdicts pair = some outcome) :
    outcome.winner = .tie := by
  unfold pairOutcome at hsome
  cases hforward : verdicts pair false with
  | none => simp [hforward] at hsome
  | some forward =>
    have htie := h false forward hforward
    cases bothOrders <;> cases hswapped : verdicts pair true with
    | none =>
      simp only [hforward, hswapped, some.injEq] at hsome
      rw [← hsome]
      exact htie
    | some swapped =>
      have htie' := h true swapped hswapped
      simp only [hforward, hswapped, some.injEq] at hsome
      rw [← hsome]
      simp [htie, htie', combineOrders, Winner.exchanged]

/-- The same judge when every pair is presented the other way round. -/
def reversed (verdicts : Verdicts) : Verdicts := fun pair swapped =>
  verdicts pair.swap (!swapped)

theorem exchanged_reversed (schedule : List (ℕ × ℕ)) (verdicts : Verdicts) :
    Exchanged true schedule verdicts (reversed verdicts) :=
  ⟨fun _ _ _ _ => rfl, fun hsingle => by cases hsingle⟩

variable {completed : ℕ × ℕ → Bool → Bool}

theorem oneWin_tie {won pair : ℕ × ℕ} {order swapped : Bool}
    (hother : ¬(pair = won ∧ swapped = order)) (verdict : Verdict)
    (h : oneWin completed won order pair swapped = some verdict) : verdict.1 = .tie := by
  unfold oneWin at h
  rw [if_neg hother] at h
  split_ifs at h
  rw [← some.inj h]

/-- A table with one win is rated apart from its reversal, when the win was heard from that side
alone. -/
theorem ratings_oneWin {size : ℕ} {schedule others : List (ℕ × ℕ)} {verdicts reversed : Verdicts}
    (hpair : pair ∈ schedule) (hne : pair.1 ≠ pair.2) (hlt : pair.1 < size)
    (hwin : pairOutcome true verdicts pair = some ⟨pair.1, pair.2, .a, ""⟩)
    (hties : ∀ other ≠ pair, ∀ outcome, pairOutcome true verdicts other = some outcome → outcome.winner = .tie)
    (hall : ∀ other outcome, pairOutcome true reversed other = some outcome → outcome.winner = .tie) :
    (if (outcomesOf true verdicts schedule).isEmpty then none
      else some ((List.range size).map (ratingOf (outcomesOf true verdicts schedule)))) ≠
    (if (outcomesOf true reversed others).isEmpty then none
      else some ((List.range size).map (ratingOf (outcomesOf true reversed others)))) := by
  have hnonempty : (outcomesOf true verdicts schedule).isEmpty = false := by
    rw [isEmpty_eq_false_iff_exists_mem]
    exact ⟨_, mem_filterMap.mpr ⟨pair, hpair, hwin⟩⟩
  rw [hnonempty, if_neg Bool.false_ne_true]
  split_ifs
  · exact some_ne_none _
  · intro hsame
    exact ratings_win hpair hne hlt hwin (fun other _ hother => hties other hother)
      (fun other _ => hall other) (some.inj hsame)

/-- **Not otherwise.** A pair heard from one side alone has a judge that is not even-handed. -/
theorem not_evenHanded {size : ℕ} (h : 2 ≤ size) {maxPairs : Option ℕ}
    (hpair : pair ∈ pairSchedule size maxPairs) {order : Bool}
    (hheard : completed pair order = true) (hunheard : completed pair (!order) = false) :
    ¬EvenHandedOn size maxPairs true completed := by
  intro heven
  let table := oneWin completed pair order
  obtain ⟨hfirst, hsecond, hne⟩ := (pairSchedule_scheduled h maxPairs).members pair hpair
  have hcompletes : (Court.ofTable table).Completes (pairSchedule size maxPairs) true completed := by
    intro other _ swapped _
    rw [Court.verdict_ofTable]
    cases hother : completed other swapped <;> simp [table, oneWin, hother]
  have hsame := (heven _ (Court.filled_ofTable table) hcompletes).exchanged
    (Court.ofTable (reversed table)) (Court.filled_ofTable _) (by
      rw [Court.verdict_ofTable, Court.verdict_ofTable]
      exact exchanged_reversed _ table)
  have hmembers : ∀ other ∈ (pairSchedule size maxPairs).map Prod.swap,
      other.1 < size ∧ other.2 < size := by
    intro other hother
    obtain ⟨original, hmem, rfl⟩ := List.mem_map.mp hother
    exact (pairSchedule_members h maxPairs original hmem).symm
  rw [ratings_scorePairwiseVia h (Court.filled_ofTable table),
    ratings_scoreScheduled (Court.filled_ofTable _)
      (by simpa using pairSchedule_ne_nil h maxPairs) hmembers true,
    Court.verdict_ofTable, Court.verdict_ofTable] at hsame
  have hwon : table pair order = some (.a, "") := by simp [table, oneWin, hheard]
  have hlost : table pair (!order) = none := by simp [table, oneWin, hunheard]
  have hties (other : ℕ × ℕ) (hother : other ≠ pair) (swapped : Bool) (verdict : Verdict)
      (hverdict : table other swapped = some verdict) : verdict.1 = .tie :=
    oneWin_tie (fun hboth => hother hboth.1) verdict hverdict
  have hties' (other : ℕ × ℕ) (hother : other ≠ pair.swap) (swapped : Bool) (verdict : Verdict)
      (hverdict : reversed table other swapped = some verdict) : verdict.1 = .tie :=
    hties other.swap (fun hswap => hother (by rw [← hswap, Prod.swap_swap])) (!swapped) verdict
      hverdict
  cases order with
  | false =>
    -- heard as presented: credited there, dropped the other way round
    refine ratings_oneWin hpair hne hfirst (pairOutcome_forward hwon fun _ => hlost)
      (fun other hother => pairOutcome_tie (hties other hother)) ?_ hsame.symm
    intro other outcome hsome
    by_cases hswap : other = pair.swap
    · have hnone : reversed table other false = none := by
        rw [hswap, reversed, Prod.swap_swap]
        exact hlost
      rw [pairOutcome_eq_none.mpr hnone] at hsome
      cases hsome
    · exact pairOutcome_tie (hties' other hswap) outcome hsome
  | true =>
    -- heard swapped: dropped as presented, credited the other way round
    have hwon' : reversed table pair.swap false = some (.a, "") := by
      rw [reversed, Prod.swap_swap]
      exact hwon
    have hlost' : reversed table pair.swap true = none := by
      rw [reversed, Prod.swap_swap]
      exact hlost
    refine ratings_oneWin (List.mem_map_of_mem hpair) hne.symm hsecond
      (pairOutcome_forward hwon' fun _ => hlost')
      (fun other hother => pairOutcome_tie (hties' other hother)) ?_ hsame
    intro other outcome hsome
    by_cases heq : other = pair
    · rw [heq, pairOutcome_eq_none.mpr hlost] at hsome
      cases hsome
    · exact pairOutcome_tie (hties other heq) outcome hsome

/-- Two trajectories in both orders, with the swapped comparison failing: a judge that always
prefers what it reads first hands one of them everything. -/
theorem evenHanded_fails_forwardOnly :
    ratings (scorePairwiseVia (Court.ofTable fun _ swapped =>
      if swapped then none else some (.a, "")) 2 none true) = some [(1, true), (0, true)] ∧
      ¬EvenHandedOn 2 none true (fun _ swapped => !swapped) := by
  constructor
  · rw [ratings_scorePairwiseVia le_rfl (Court.filled_ofTable _), Court.verdict_ofTable]
    decide +kernel
  · exact not_evenHanded le_rfl (show (0, 1) ∈ pairSchedule 2 none by decide +kernel)
      (show (!false) = true from rfl) rfl

/-- **Pairwise judging.** The schedule of a group pairs everybody, repeats no pair in either order
and only grows with its limit, up to all `n (n - 1) / 2` pairs; a stored verdict is replayed as it
was. The scores are even-handed for every judge, cache and set of failing comparisons exactly when,
with both orders on, every scheduled pair was heard from both sides or from neither. -/
theorem scores_evenHanded_iff {size : ℕ} (h : 2 ≤ size) (maxPairs : Option ℕ) (bothOrders : Bool)
    (completed : ℕ × ℕ → Bool → Bool) :
    ((pairSchedule size none).length = size * (size - 1) / 2 ∧
      (∀ limit, Scheduled size (pairSchedule size limit) ∧
        pairSchedule size limit <+: pairSchedule size none) ∧
      ∀ most more : ℕ, most ≤ more →
        pairSchedule size (some most) <+: pairSchedule size (some more)) ∧
    (∀ verdict, replay (verdictRow verdict) = .ok verdict) ∧
    (EvenHandedOn size maxPairs bothOrders completed ↔
      (bothOrders = true → ∀ pair ∈ pairSchedule size maxPairs,
        completed pair false = completed pair true)) := by
  refine ⟨pairSchedule_spec h, replay_verdictRow, ?_, ?_⟩
  · rintro heven rfl pair hpair
    by_contra hne
    cases hforward : completed pair false with
    | false =>
      have hswapped : completed pair true = true := by simpa [hforward] using hne
      exact not_evenHanded h hpair hswapped hforward heven
    | true =>
      have hswapped : completed pair true = false := by simpa [hforward] using hne
      exact not_evenHanded h hpair hforward hswapped heven
  · intro hcomplete court hfilled hcompletes
    refine evenHanded_of_complete h hfilled fun hboth pair hpair => ?_
    rw [hcompletes pair hpair false (by simp), hcompletes pair hpair true fun _ => hboth]
    exact hcomplete hboth pair hpair

/-- Three trajectories of which one pair was heard from neither side. -/
theorem scores_evenHanded_iff_threeOfThem :
    EvenHandedOn 3 none true (fun pair _ => pair != (1, 2)) :=
  (scores_evenHanded_iff (by decide) none true _).2.2.mpr fun _ _ _ => rfl

end Retrograd.Judge
