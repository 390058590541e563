import Retrograd.Judge.Pairwise
import Mathlib.Algebra.Order.BigOperators.Group.List
import Mathlib.Tactic.Linarith
import Mathlib.Tactic.FieldSimp

/-!
# Win rates

The verdicts of a wave are a **table**: one for every scheduled pair and presentation order that
was asked, from the cache or from the judge. The scores of a run are a function of that table. An
outcome splits one match between two trajectories, half to each and a **bias** to its winner.
-/

namespace Retrograd.Judge

open List

/-! ### The wave as a table -/

/-- Every cached row scores something. -/
def Court.Filled (court : Court) : Prop := ∀ key row, court.cache key = some row → row ≠ []

/-- The verdict of one comparison, cached or answered. -/
def Court.verdictOf (court : Court) (comparison : PlannedComparison) : Option Verdict :=
  match court.judge comparison with
  | .ok (verdict, _) => verdict
  | .error _ => none

def Court.verdict (court : Court) : Verdicts := fun pair swapped =>
  court.verdictOf (planned court.key pair swapped)

variable {court : Court}

theorem Court.judge_ok (h : court.Filled) (comparison : PlannedComparison) :
    ∃ failure, court.judge comparison = .ok (court.verdictOf comparison, failure) := by
  have hok : ∃ result, court.judge comparison = .ok result := by
    unfold Court.judge
    cases hcache : court.cache comparison.key with
    | some row =>
      cases row with
      | nil => exact absurd rfl (h _ _ hcache)
      | cons score rest => exact ⟨_, rfl⟩
    | none =>
      cases court.complete comparison with
      | error e => exact ⟨_, rfl⟩
      | ok verdict =>
        cases hstore : court.store comparison.key (verdictRow verdict) with
        | error e => exact ⟨_, by simp only [hstore]; rfl⟩
        | ok written => exact ⟨_, by simp only [hstore]; rfl⟩
  obtain ⟨⟨verdict, failure⟩, hok⟩ := hok
  exact ⟨failure, by rw [Court.verdictOf, hok]⟩

theorem Court.hear_ok (h : court.Filled) (planned : List PlannedComparison)
    (lastError : Option JudgeError) : ∃ lastError', court.hear planned lastError =
      .ok (planned.map fun comparison => (comparison, court.verdictOf comparison), lastError') := by
  induction planned generalizing lastError with
  | nil => exact ⟨lastError, rfl⟩
  | cons comparison rest ih =>
    obtain ⟨failure, hjudge⟩ := court.judge_ok h comparison
    obtain ⟨lastError', hrest⟩ := ih (failure.or lastError)
    exact ⟨lastError', by simp only [hear, hjudge, hrest, map_cons]⟩

/-- A search whose hits all answer the same gives that answer. -/
theorem findSome?_eq_of_forall {α β : Type} {f : α → Option β} {answer : Option β} {l : List α}
    (hall : ∀ x ∈ l, f x = none ∨ f x = answer) (hany : ∃ x ∈ l, f x = answer) :
    l.findSome? f = answer := by
  induction l with
  | nil => simp at hany
  | cons x l ih =>
    rw [findSome?_cons]
    cases hx : f x with
    | some b =>
      have := (hall x (by simp)).resolve_left (by simp [hx])
      rw [← this, hx]
    | none =>
      obtain ⟨y, hy, hfy⟩ := hany
      rcases mem_cons.mp hy with rfl | hy
      · rw [hx] at hfy
        subst hfy
        refine findSome?_eq_none_iff.mpr fun z hz => ?_
        exact (hall z (by simp [hz])).elim id id
      · exact ih (fun z hz => hall z (by simp [hz])) ⟨y, hy, hfy⟩

variable {schedule : List (ℕ × ℕ)} {bothOrders : Bool}

theorem mem_plan {key : ℕ → ℕ → String} {comparison : PlannedComparison} :
    comparison ∈ plan key schedule bothOrders ↔
      ∃ pair ∈ schedule, ∃ swapped, (swapped = true → bothOrders = true) ∧
        planned key pair swapped = comparison := by
  simp only [plan, mem_flatMap, mem_map, mem_filter]
  refine exists_congr fun pair => and_congr_right fun _ => exists_congr fun swapped =>
    and_congr_left fun _ => ?_
  cases swapped <;> simp

@[simp] theorem planned_pair (key : ℕ → ℕ → String) (pair : ℕ × ℕ) (swapped : Bool) :
    (planned key pair swapped).left = pair.1 ∧ (planned key pair swapped).right = pair.2 ∧
      (planned key pair swapped).swapped = swapped := ⟨rfl, rfl, rfl⟩

variable {pair : ℕ × ℕ}

/-- Folding the wave back by pair and order gives every comparison its own verdict. -/
theorem byPair_heard (court : Court) {swapped : Bool} (hpair : pair ∈ schedule)
    (hasked : swapped = true → bothOrders = true) : byPair ((plan court.key schedule bothOrders).map
      fun comparison => (comparison, court.verdictOf comparison)) pair swapped =
        court.verdict pair swapped := by
  refine findSome?_eq_of_forall ?_ ?_
  · intro entry hentry
    obtain ⟨comparison, hcomparison, rfl⟩ := mem_map.mp (mem_reverse.mp hentry)
    obtain ⟨other, -, order, -, rfl⟩ := mem_plan.mp hcomparison
    dsimp only
    split_ifs with hsame
    · obtain ⟨hleft, hright, rfl⟩ := hsame
      obtain rfl : other = pair := Prod.ext hleft hright
      exact .inr rfl
    · exact .inl rfl
  · refine ⟨(planned court.key pair swapped, court.verdict pair swapped), ?_, ?_⟩
    · exact mem_reverse.mpr (mem_map.mpr
        ⟨_, mem_plan.mpr ⟨pair, hpair, swapped, hasked, rfl⟩, rfl⟩)
    · exact if_pos (planned_pair court.key pair swapped)

/-! ### Outcomes -/

/-- The outcomes of a schedule. -/
def outcomesOf (bothOrders : Bool) (verdicts : Verdicts) (schedule : List (ℕ × ℕ)) :
    List PairOutcome :=
  schedule.filterMap (pairOutcome bothOrders verdicts)

private theorem foldOutcomes_append (bothOrders : Bool) (verdicts : Verdicts)
    (schedule : List (ℕ × ℕ)) (done : List PairOutcome) (lastError : Option JudgeError) :
    (schedule.foldl (fun (acc : List PairOutcome × Option JudgeError) pair =>
      match pairOutcome bothOrders verdicts pair with
      | some outcome => (acc.1 ++ [outcome], acc.2)
      | none => (acc.1, some (failedPair pair))) (done, lastError)).1 =
      done ++ outcomesOf bothOrders verdicts schedule := by
  induction schedule generalizing done lastError with
  | nil => simp [outcomesOf]
  | cons pair schedule ih =>
    rw [foldl_cons]
    cases hpair : pairOutcome bothOrders verdicts pair with
    | none => rw [ih, outcomesOf, outcomesOf, filterMap_cons_none hpair]
    | some outcome =>
      rw [ih, outcomesOf, outcomesOf, filterMap_cons_some hpair, append_assoc]
      rfl

theorem foldOutcomes_eq (bothOrders : Bool) (verdicts : Verdicts) (schedule : List (ℕ × ℕ))
    (lastError : Option JudgeError) :
    (foldOutcomes bothOrders verdicts schedule lastError).1 =
      outcomesOf bothOrders verdicts schedule :=
  foldOutcomes_append bothOrders verdicts schedule [] lastError

/-- An outcome reads the verdicts of its own pair, and the swapped one only when it was asked. -/
theorem pairOutcome_congr {verdicts verdicts' : Verdicts}
    (h : ∀ swapped, (swapped = true → bothOrders = true) → verdicts pair swapped = verdicts' pair swapped) :
    pairOutcome bothOrders verdicts pair = pairOutcome bothOrders verdicts' pair := by
  unfold pairOutcome
  rw [h false (by simp)]
  cases bothOrders with
  | false => rfl
  | true => rw [h true (by simp)]

/-- **The run.** A schedule's scores are those of its verdicts; it fails exactly when no pair has an
outcome. -/
theorem scoreScheduled_eq (hfilled : court.Filled) (size : ℕ) (hschedule : schedule ≠ [])
    (bothOrders : Bool) : (scoreScheduled court size schedule bothOrders).toOption =
      if (outcomesOf bothOrders court.verdict schedule).isEmpty then none
      else some (scoresFromPairs size (outcomesOf bothOrders court.verdict schedule)) := by
  obtain ⟨lastError, hheard⟩ := court.hear_ok hfilled (plan court.key schedule bothOrders) none
  have houtcomes : outcomesOf bothOrders (byPair ((plan court.key schedule bothOrders).map
      fun comparison => (comparison, court.verdictOf comparison))) schedule =
      outcomesOf bothOrders court.verdict schedule := by
    refine filterMap_congr fun pair hpair => pairOutcome_congr fun swapped hasked => ?_
    exact byPair_heard court hpair hasked
  have hnonempty : schedule.isEmpty = false := by simpa using hschedule
  simp only [scoreScheduled, hnonempty, Bool.false_eq_true, if_false, hheard, scoreVerdicts,
    foldOutcomes_eq, houtcomes]
  split_ifs <;> rfl

theorem pairOutcome_some {verdicts : Verdicts} {outcome : PairOutcome}
    (h : pairOutcome bothOrders verdicts pair = some outcome) :
    outcome.left = pair.1 ∧ outcome.right = pair.2 := by
  unfold pairOutcome at h
  cases hforward : verdicts pair false with
  | none => simp [hforward] at h
  | some forward =>
    cases bothOrders <;> cases hswapped : verdicts pair true <;>
      simp only [hforward, hswapped, Option.some.injEq] at h <;> subst h <;> exact ⟨rfl, rfl⟩

theorem pairOutcome_eq_none {verdicts : Verdicts} :
    pairOutcome bothOrders verdicts pair = none ↔ verdicts pair false = none := by
  unfold pairOutcome
  cases verdicts pair false with
  | none => simp
  | some forward => cases bothOrders <;> cases verdicts pair true <;> simp

theorem inGroup_outcomesOf {size : ℕ} (bothOrders : Bool) (verdicts : Verdicts)
    (h : ∀ pair ∈ schedule, pair.1 < size ∧ pair.2 < size) :
    inGroup size (outcomesOf bothOrders verdicts schedule) =
      outcomesOf bothOrders verdicts schedule := by
  refine filter_eq_self.mpr fun outcome houtcome => ?_
  obtain ⟨pair, hpair, hsome⟩ := mem_filterMap.mp houtcome
  obtain ⟨hleft, hright⟩ := pairOutcome_some hsome
  obtain ⟨hfirst, hsecond⟩ := h pair hpair
  simp [hleft, hright, hfirst, hsecond]

/-! ### Counts -/

/-- What an outcome gives a trajectory beyond half of its matches. -/
def PairOutcome.bias (outcome : PairOutcome) (index : ℕ) : ℚ :=
  match outcome.winner with
  | .a => (if outcome.left = index then 1 / 2 else 0) - (if outcome.right = index then 1 / 2 else 0)
  | .b => (if outcome.right = index then 1 / 2 else 0) - (if outcome.left = index then 1 / 2 else 0)
  | .tie => 0

theorem PairOutcome.winsOf_eq (outcome : PairOutcome) (index : ℕ) :
    outcome.winsOf index = outcome.matchesOf index / 2 + outcome.bias index := by
  unfold winsOf matchesOf bias
  cases outcome.winner <;> dsimp only <;> split_ifs <;> norm_num

theorem PairOutcome.winsOf_bounds (outcome : PairOutcome) (index : ℕ) :
    0 ≤ outcome.winsOf index ∧ outcome.winsOf index ≤ outcome.matchesOf index := by
  unfold winsOf matchesOf
  cases outcome.winner <;> dsimp only <;> split_ifs <;> norm_num

theorem winCount_eq (outcomes : List PairOutcome) (index : ℕ) :
    winCount outcomes index =
      matchCount outcomes index / 2 + (outcomes.map (·.bias index)).sum := by
  induction outcomes with
  | nil => simp [winCount, matchCount]
  | cons outcome outcomes ih =>
    simp only [winCount, matchCount, map_cons, sum_cons] at ih ⊢
    rw [ih, outcome.winsOf_eq]
    push_cast
    ring

theorem winCount_bounds (outcomes : List PairOutcome) (index : ℕ) :
    0 ≤ winCount outcomes index ∧ winCount outcomes index ≤ matchCount outcomes index := by
  induction outcomes with
  | nil => simp [winCount, matchCount]
  | cons outcome outcomes ih =>
    obtain ⟨hlow, hhigh⟩ := outcome.winsOf_bounds index
    simp only [winCount, matchCount, map_cons, sum_cons] at ih ⊢
    rw [Nat.cast_add]
    constructor <;> linarith [ih.1, ih.2]

theorem matchCount_eq_zero {outcomes : List PairOutcome} {index : ℕ} :
    matchCount outcomes index = 0 ↔
      ∀ outcome ∈ outcomes, outcome.left ≠ index ∧ outcome.right ≠ index := by
  rw [matchCount, sum_eq_zero_iff]
  simp only [mem_map, forall_exists_index, and_imp, forall_apply_eq_imp_iff₂]
  refine forall₂_congr fun outcome _ => ?_
  unfold PairOutcome.matchesOf
  split_ifs <;> simp_all

/-! ### Scores -/

/-- A score's value and whether it counts. -/
def Score.rating (score : Score) : ℚ × Bool := (score.value, score.valid)

/-- The rating of one trajectory. -/
def ratingOf (outcomes : List PairOutcome) (index : ℕ) : ℚ × Bool :=
  if matchCount outcomes index = 0 then (0, false)
  else (winCount outcomes index / matchCount outcomes index, true)

theorem scoresFromPairs_rating (size : ℕ) (outcomes : List PairOutcome) :
    (scoresFromPairs size outcomes).map Score.rating =
      (List.range size).map (ratingOf (inGroup size outcomes)) := by
  rw [scoresFromPairs, map_map]
  refine map_congr_left fun index _ => ?_
  simp only [Function.comp_apply, ratingOf]
  split_ifs <;> rfl

theorem ratingOf_bounds (outcomes : List PairOutcome) (index : ℕ) :
    0 ≤ (ratingOf outcomes index).1 ∧ (ratingOf outcomes index).1 ≤ 1 := by
  unfold ratingOf
  split_ifs with hnone
  · norm_num
  · obtain ⟨hlow, hhigh⟩ := winCount_bounds outcomes index
    have hpos : (0 : ℚ) < matchCount outcomes index := by
      exact_mod_cast Nat.pos_of_ne_zero hnone
    exact ⟨div_nonneg hlow hpos.le, (div_le_one₀ hpos).mpr hhigh⟩

/-- Without bias a trajectory that was compared scores one half. -/
theorem ratingOf_half {outcomes : List PairOutcome} {index : ℕ}
    (hmatches : matchCount outcomes index ≠ 0) :
    (ratingOf outcomes index).1 = 1 / 2 ↔ (outcomes.map (·.bias index)).sum = 0 := by
  have hpos : (matchCount outcomes index : ℚ) ≠ 0 := by exact_mod_cast hmatches
  rw [ratingOf, if_neg hmatches, winCount_eq]
  dsimp only
  rw [div_eq_div_iff hpos two_ne_zero]
  constructor <;> intro h <;> linarith

end Retrograd.Judge
