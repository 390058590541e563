import Retrograd.Judge.WinRate

/-!
# Presentation roles

A pair's outcome is read off its forward verdict. When both orders ran and **either both or
neither** completed, the outcome is the same whichever of the two presentations is called the
forward one. A pair with only one of them is dropped or credited by which one it is, so its scores
follow the presentation.
-/

namespace Retrograd.Judge

open List

/-! ### The other way round -/

/-- The same outcome of the pair presented the other way round. -/
structure Mirrored (outcome other : PairOutcome) : Prop where
  left : other.left = outcome.right
  right : other.right = outcome.left
  winner : other.winner = outcome.winner.exchanged

theorem Mirrored.matchesOf {outcome other : PairOutcome} (h : Mirrored outcome other) (index : ℕ) :
    other.matchesOf index = outcome.matchesOf index := by
  unfold PairOutcome.matchesOf
  rw [h.left, h.right, add_comm]

theorem Mirrored.bias {outcome other : PairOutcome} (h : Mirrored outcome other) (index : ℕ) :
    other.bias index = outcome.bias index := by
  unfold PairOutcome.bias
  rw [h.left, h.right, h.winner]
  cases outcome.winner <;> rfl

theorem ratingOf_mirrored {outcomes others : List PairOutcome}
    (h : Forall₂ Mirrored outcomes others) (index : ℕ) :
    ratingOf others index = ratingOf outcomes index := by
  have hcounts : matchCount others index = matchCount outcomes index ∧
      (others.map (·.bias index)).sum = (outcomes.map (·.bias index)).sum := by
    induction h with
    | nil => exact ⟨rfl, rfl⟩
    | cons hhead _ ih =>
      simp only [matchCount, map_cons, sum_cons] at ih ⊢
      rw [hhead.matchesOf, hhead.bias, ih.1, ih.2]
      exact ⟨rfl, rfl⟩
  unfold ratingOf
  rw [winCount_eq, winCount_eq, hcounts.1, hcounts.2]

/-- The verdicts of a run that presents every pair the other way round. With both orders the two
presentations of a pair trade places; with one, the judge that preferred one member now answers
the other letter. -/
structure Exchanged (bothOrders : Bool) (schedule : List (ℕ × ℕ)) (verdicts others : Verdicts) :
    Prop where
  both : bothOrders = true → ∀ pair ∈ schedule, ∀ swapped,
    others pair.swap swapped = verdicts pair (!swapped)
  single : bothOrders = false → ∀ pair ∈ schedule,
    others pair.swap false = (verdicts pair false).map fun verdict =>
      (verdict.1.exchanged, verdict.2)

@[simp] theorem Winner.exchanged_exchanged (winner : Winner) :
    winner.exchanged.exchanged = winner := by
  cases winner <;> rfl

theorem combineOrders_exchanged (forward swapped : Winner) :
    (combineOrders swapped forward).1 = (combineOrders forward swapped).1.exchanged := by
  cases forward <;> cases swapped <;> rfl

variable {bothOrders : Bool} {pair : ℕ × ℕ}

/-- A forward verdict on its own is the outcome. -/
theorem pairOutcome_forward {verdicts : Verdicts} {verdict : Verdict}
    (hforward : verdicts pair false = some verdict)
    (halone : bothOrders = true → verdicts pair true = none) :
    pairOutcome bothOrders verdicts pair = some ⟨pair.1, pair.2, verdict.1, verdict.2⟩ := by
  unfold pairOutcome
  rw [hforward]
  cases bothOrders with
  | false => rfl
  | true => rw [halone rfl]

/-- Two verdicts are combined. -/
theorem pairOutcome_both {verdicts : Verdicts} {forward swapped : Verdict}
    (hforward : verdicts pair false = some forward) (hswapped : verdicts pair true = some swapped) :
    ∃ explanation, pairOutcome true verdicts pair =
      some ⟨pair.1, pair.2, (combineOrders forward.1 swapped.1).1, explanation⟩ :=
  ⟨_, by rw [pairOutcome, hforward, hswapped]⟩

variable {schedule : List (ℕ × ℕ)} {verdicts others : Verdicts}

/-- With both or neither of its two verdicts, a pair's outcome is mirrored when its presentations
trade places. -/
theorem pairOutcome_exchanged (h : Exchanged bothOrders schedule verdicts others)
    (hpair : pair ∈ schedule)
    (hcomplete : bothOrders = true → (verdicts pair false).isSome = (verdicts pair true).isSome) :
    (pairOutcome bothOrders verdicts pair = none ∧
      pairOutcome bothOrders others pair.swap = none) ∨
    ∃ outcome other, pairOutcome bothOrders verdicts pair = some outcome ∧
      pairOutcome bothOrders others pair.swap = some other ∧ Mirrored outcome other := by
  cases bothOrders with
  | false =>
    have hsingle := h.single rfl pair hpair
    cases hforward : verdicts pair false with
    | none =>
      rw [hforward] at hsingle
      exact .inl ⟨pairOutcome_eq_none.mpr hforward, pairOutcome_eq_none.mpr hsingle⟩
    | some verdict =>
      rw [hforward] at hsingle
      exact .inr ⟨_, _, pairOutcome_forward hforward (by simp),
        pairOutcome_forward hsingle (by simp), ⟨rfl, rfl, rfl⟩⟩
  | true =>
    have hfirst := h.both rfl pair hpair false
    have hsecond := h.both rfl pair hpair true
    have hcomplete := hcomplete rfl
    simp only [Bool.not_false, Bool.not_true] at hfirst hsecond
    cases hforward : verdicts pair false with
    | none =>
      have hswapped : verdicts pair true = none := by simpa [hforward] using hcomplete
      rw [hswapped] at hfirst
      exact .inl ⟨pairOutcome_eq_none.mpr hforward, pairOutcome_eq_none.mpr hfirst⟩
    | some verdict =>
      obtain ⟨swapped, hswapped⟩ : ∃ swapped, verdicts pair true = some swapped := by
        rw [hforward] at hcomplete
        exact Option.isSome_iff_exists.mp hcomplete.symm
      rw [hswapped] at hfirst
      rw [hforward] at hsecond
      obtain ⟨_, houtcome⟩ := pairOutcome_both hforward hswapped
      obtain ⟨_, hother⟩ := pairOutcome_both hfirst hsecond
      exact .inr ⟨_, _, houtcome, hother, ⟨rfl, rfl, combineOrders_exchanged _ _⟩⟩

theorem outcomesOf_exchanged (h : Exchanged bothOrders schedule verdicts others)
    (hcomplete : bothOrders = true → ∀ pair ∈ schedule, (verdicts pair false).isSome = (verdicts pair true).isSome) :
    Forall₂ Mirrored (outcomesOf bothOrders verdicts schedule)
      (outcomesOf bothOrders others (schedule.map Prod.swap)) := by
  have hall (pairs : List (ℕ × ℕ)) (hsub : ∀ pair ∈ pairs, pair ∈ schedule) :
      Forall₂ Mirrored (outcomesOf bothOrders verdicts pairs)
        (outcomesOf bothOrders others (pairs.map Prod.swap)) := by
    induction pairs with
    | nil => exact .nil
    | cons pair pairs ih =>
      have hrest := ih fun other hmem => hsub other (by simp [hmem])
      have hpair := hsub pair (by simp)
      rcases pairOutcome_exchanged h hpair fun hboth => hcomplete hboth pair hpair with
        ⟨hnone, hnone'⟩ | ⟨outcome, other, hsome, hsome', hmirrored⟩
      · rw [outcomesOf, filterMap_cons_none hnone, outcomesOf, map_cons,
          filterMap_cons_none hnone']
        exact hrest
      · rw [outcomesOf, filterMap_cons_some hsome, outcomesOf, map_cons,
          filterMap_cons_some hsome']
        exact .cons hmirrored hrest
  exact hall schedule fun _ hmem => hmem

/-! ### Ratings of a run -/

/-- The values and validities a run reports, when it reports any. -/
def ratings (result : Except JudgeError (List Score)) : Option (List (ℚ × Bool)) :=
  result.toOption.map fun scores => scores.map Score.rating

theorem ratings_scoreScheduled {court : Court} (hfilled : court.Filled) {size : ℕ}
    (hnonempty : schedule ≠ []) (hmembers : ∀ pair ∈ schedule, pair.1 < size ∧ pair.2 < size)
    (bothOrders : Bool) : ratings (scoreScheduled court size schedule bothOrders) =
      if (outcomesOf bothOrders court.verdict schedule).isEmpty then none
      else some ((List.range size).map
        (ratingOf (outcomesOf bothOrders court.verdict schedule))) := by
  rw [ratings, scoreScheduled_eq hfilled size hnonempty bothOrders]
  split_ifs
  · rfl
  · rw [Option.map_some, scoresFromPairs_rating,
      inGroup_outcomesOf bothOrders court.verdict hmembers]

/-- A run that presents every pair the other way round reports the same ratings. -/
theorem ratings_exchanged {court other : Court} (hfilled : court.Filled) (hother : other.Filled)
    {size : ℕ} (hnonempty : schedule ≠ [])
    (hmembers : ∀ pair ∈ schedule, pair.1 < size ∧ pair.2 < size)
    (h : Exchanged bothOrders schedule court.verdict other.verdict)
    (hcomplete : bothOrders = true → ∀ pair ∈ schedule, (court.verdict pair false).isSome = (court.verdict pair true).isSome) :
    ratings (scoreScheduled other size (schedule.map Prod.swap) bothOrders) =
      ratings (scoreScheduled court size schedule bothOrders) := by
  have hmirrored := outcomesOf_exchanged h hcomplete
  have hmembers' : ∀ pair ∈ schedule.map Prod.swap, pair.1 < size ∧ pair.2 < size := by
    intro pair hpair
    obtain ⟨original, hmem, rfl⟩ := mem_map.mp hpair
    exact ⟨(hmembers original hmem).2, (hmembers original hmem).1⟩
  rw [ratings_scoreScheduled hfilled hnonempty hmembers,
    ratings_scoreScheduled hother (by simpa using hnonempty) hmembers']
  have hlength := hmirrored.length_eq
  have hempty : (outcomesOf bothOrders other.verdict (schedule.map Prod.swap)).isEmpty =
      (outcomesOf bothOrders court.verdict schedule).isEmpty := by
    rw [Bool.eq_iff_iff, isEmpty_iff_length_eq_zero, isEmpty_iff_length_eq_zero, hlength]
  rw [hempty]
  split_ifs
  · rfl
  · exact congrArg some (map_congr_left fun index _ => ratingOf_mirrored hmirrored index)

/-! ### Bias -/

/-- Ties leave nobody ahead. -/
theorem bias_ties {outcomes : List PairOutcome} (h : ∀ outcome ∈ outcomes, outcome.winner = .tie)
    (index : ℕ) : (outcomes.map (·.bias index)).sum = 0 := by
  refine sum_eq_zero fun bias hbias => ?_
  obtain ⟨outcome, houtcome, rfl⟩ := mem_map.mp hbias
  rw [PairOutcome.bias, h outcome houtcome]

/-- One win among ties puts its trajectory ahead. -/
theorem bias_win {verdicts : Verdicts} {explanation : String} (hpair : pair ∈ schedule)
    (hne : pair.1 ≠ pair.2)
    (hwin : pairOutcome bothOrders verdicts pair = some ⟨pair.1, pair.2, .a, explanation⟩)
    (hties : ∀ other ∈ schedule, other ≠ pair → ∀ outcome, pairOutcome bothOrders verdicts other = some outcome → outcome.winner = .tie) :
    ((outcomesOf bothOrders verdicts schedule).map (·.bias pair.1)).sum ≠ 0 := by
  have hsum (pairs : List (ℕ × ℕ)) :
      ((outcomesOf bothOrders verdicts pairs).map (·.bias pair.1)).sum =
        (pairs.map fun other => ((pairOutcome bothOrders verdicts other).map
          (·.bias pair.1)).getD 0).sum := by
    induction pairs with
    | nil => rfl
    | cons other pairs ih =>
      cases hother : pairOutcome bothOrders verdicts other with
      | none => simpa [outcomesOf, filterMap_cons_none hother, hother] using ih
      | some outcome => simpa [outcomesOf, filterMap_cons_some hother, hother] using ih
  have hsingle := sum_map_eq_nsmul_single pair (l := schedule) (f := fun other =>
    ((pairOutcome bothOrders verdicts other).map (·.bias pair.1)).getD 0) (by
      intro other hother hmem
      cases houtcome : pairOutcome bothOrders verdicts other with
      | none => rfl
      | some outcome =>
        have htie := hties other hmem hother outcome houtcome
        simp [PairOutcome.bias, htie])
  rw [hsum, hsingle, hwin]
  have hbias : ((some (⟨pair.1, pair.2, .a, explanation⟩ : PairOutcome)).map
      (·.bias pair.1)).getD 0 = 1 / 2 := by
    simp [PairOutcome.bias, hne.symm]
  rw [hbias, nsmul_eq_mul]
  have hcount := (@List.count_pos_iff _ instBEqOfDecidableEq inferInstance pair schedule).mpr hpair
  exact mul_ne_zero (Nat.cast_ne_zero.mpr hcount.ne') (by norm_num)

/-- One win among ties is seen in the ratings: no outcomes that are all ties rate the same. -/
theorem ratings_win {size : ℕ} {schedule reversed : List (ℕ × ℕ)} {explanation : String}
    (hpair : pair ∈ schedule) (hne : pair.1 ≠ pair.2) (hlt : pair.1 < size)
    (hwin : pairOutcome bothOrders verdicts pair = some ⟨pair.1, pair.2, .a, explanation⟩)
    (hties : ∀ other ∈ schedule, other ≠ pair → ∀ outcome, pairOutcome bothOrders verdicts other = some outcome → outcome.winner = .tie)
    (hall : ∀ other ∈ reversed, ∀ outcome, pairOutcome bothOrders others other = some outcome → outcome.winner = .tie) :
    (List.range size).map (ratingOf (outcomesOf bothOrders verdicts schedule)) ≠
      (List.range size).map (ratingOf (outcomesOf bothOrders others reversed)) := by
  intro hsame
  have hrating : ratingOf (outcomesOf bothOrders verdicts schedule) pair.1 =
      ratingOf (outcomesOf bothOrders others reversed) pair.1 := by
    have := congrArg (·[pair.1]?) hsame
    simpa [hlt] using this
  have hmatches : matchCount (outcomesOf bothOrders verdicts schedule) pair.1 ≠ 0 := by
    rw [Ne, matchCount_eq_zero]
    intro hnone
    exact (hnone _ (mem_filterMap.mpr ⟨pair, hpair, hwin⟩)).1 rfl
  have hahead := bias_win hpair hne hwin hties
  have hlevel : ((outcomesOf bothOrders others reversed).map (·.bias pair.1)).sum = 0 := by
    refine bias_ties (fun outcome houtcome => ?_) pair.1
    obtain ⟨other, hother, hsome⟩ := mem_filterMap.mp houtcome
    exact hall other hother outcome hsome
  by_cases hcompared : matchCount (outcomesOf bothOrders others reversed) pair.1 = 0
  · have hvalid : (ratingOf (outcomesOf bothOrders verdicts schedule) pair.1).2 = true := by
      rw [ratingOf, if_neg hmatches]
    rw [hrating, ratingOf, if_pos hcompared] at hvalid
    cases hvalid
  · have hhalf := (ratingOf_half hcompared).mpr hlevel
    rw [← hrating] at hhalf
    exact hahead ((ratingOf_half hmatches).mp hhalf)

end Retrograd.Judge
