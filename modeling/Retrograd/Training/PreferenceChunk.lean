import Retrograd.Training.PreferenceGradient

/-!
# A chunk trains the gradient of its mean loss

The parameters enter a chunk through the log-probabilities of the trained tokens, whose sums the
losses read. With the weights of a chunk written on those tokens and held **fixed**, the weighted
cross-entropy moves with the parameters exactly as the mean loss of the chunk's pairs does.
-/

namespace Retrograd.Training.Preference

open Logic List

variable {E : Type}

/-- A policy as the losses see it: the log-probability of every trained token of either response
of a pair, as a function of the parameters. -/
structure Scorer (E : Type) where
  chosen : Pair → List (E → ℝ)
  rejected : Pair → List (E → ℝ)
  chosen_length (pair : Pair) : (chosen pair).length = pair.chosen.completionLen
  rejected_length (pair : Pair) : (rejected pair).length = pair.rejected.completionLen

/-- A summed log-probability. -/
def summed (logps : List (E → ℝ)) (parameters : E) : ℝ :=
  (logps.map fun logp => logp parameters).sum

/-- The two sums of a pair under the policy's current parameters. -/
def Scorer.score (scorer : Scorer E) (parameters : E) (pair : Pair) : Except Error (ℝ × ℝ) :=
  .ok (summed (scorer.chosen pair) parameters, summed (scorer.rejected pair) parameters)

/-- The members of a chunk, in the order their weights are written. -/
def Scorer.members (scorer : Scorer E) (pairs : List (Pair × Option (ℝ × ℝ))) :
    List (List (E → ℝ)) :=
  pairs.flatMap fun row => [scorer.chosen row.1, scorer.rejected row.1]

/-- The weighted cross-entropy of one member: every token's negative log-probability, times its
weight. -/
def memberEntropy (weights : List ℝ) (logps : List (E → ℝ)) (parameters : E) : ℝ :=
  (List.zipWith (fun weight logp => weight * -logp parameters) weights logps).sum

/-- The weighted cross-entropy of a chunk. -/
def crossEntropy (weights : List (List ℝ)) (members : List (List (E → ℝ))) (parameters : E) : ℝ :=
  (List.zipWith (fun weights logps => memberEntropy weights logps parameters) weights members).sum

/-- The mean loss a chunk would report under other parameters. -/
noncomputable def meanLossAt (display : ℝ → String) (scorer : Scorer E)
    (pairs : List (Pair × Option (ℝ × ℝ))) (loss : PreferenceLoss ℝ) (parameters : E) : ℝ :=
  match chunkTerms display (scorer.score parameters) pairs loss with
  | .ok (totals, _) => totals.meanLoss
  | .error _ => 0

/-! ### One pair -/

/-- The scores of the two sides of a row. -/
def chosenSide (scorer : Scorer E) (parameters : E) (row : Pair × Option (ℝ × ℝ)) : SideScores ℝ :=
  sideScores (summed (scorer.chosen row.1) parameters) row.1.chosen (row.2.map (·.1))

def rejectedSide (scorer : Scorer E) (parameters : E) (row : Pair × Option (ℝ × ℝ)) :
    SideScores ℝ :=
  sideScores (summed (scorer.rejected row.1) parameters) row.1.rejected (row.2.map (·.2))

/-- The loss of a row under other parameters. -/
noncomputable def rowLoss (scorer : Scorer E) (loss : PreferenceLoss ℝ)
    (row : Pair × Option (ℝ × ℝ)) (here parameters : E) : ℝ :=
  lossAt loss (chosenSide scorer here row) (rejectedSide scorer here row)
    (summed (scorer.chosen row.1) parameters) (summed (scorer.rejected row.1) parameters)

/-- One weight on every token of a member weighs the member's sum. -/
theorem memberEntropy_replicate (weight : ℝ) (logps : List (E → ℝ)) (parameters : E) :
    memberEntropy (List.replicate logps.length weight) logps parameters =
      -weight * summed logps parameters := by
  induction logps with
  | nil => simp [memberEntropy, summed]
  | cons logp logps ih =>
    have hhead : memberEntropy (List.replicate (logp :: logps).length weight) (logp :: logps)
        parameters = weight * -logp parameters +
          memberEntropy (List.replicate logps.length weight) logps parameters := by
      simp [memberEntropy, replicate_succ]
    have hsum : summed (logp :: logps) parameters = logp parameters + summed logps parameters := by
      simp [summed]
    rw [hhead, ih, hsum]
    ring

variable [NormedAddCommGroup E] [NormedSpace ℝ E]

variable {parameters : E}

theorem summed_differentiable {logps : List (E → ℝ)}
    (h : ∀ logp ∈ logps, DifferentiableAt ℝ logp parameters) :
    DifferentiableAt ℝ (summed logps) parameters := by
  induction logps with
  | nil => exact differentiableAt_const 0
  | cons logp logps ih =>
    have hsplit : summed (logp :: logps) = fun parameters => logp parameters +
        summed logps parameters := by
      funext parameters
      rw [summed, map_cons, sum_cons, summed]
    rw [hsplit]
    exact (h logp (by simp)).add (ih fun other hmem => h other (by simp [hmem]))

variable {scorer : Scorer E}

/-- **One pair.** The weights of a pair move its part of the cross-entropy as its share of the
loss. -/
theorem row_gradient {loss : PreferenceLoss ℝ} {row : Pair × Option (ℝ × ℝ)} {terms : PairTerms ℝ}
    (share : ℝ)
    (h : pairTerms loss (chosenSide scorer parameters row) (rejectedSide scorer parameters row) = .ok terms)
    (hchosen : ∀ logp ∈ scorer.chosen row.1, DifferentiableAt ℝ logp parameters)
    (hrejected : ∀ logp ∈ scorer.rejected row.1, DifferentiableAt ℝ logp parameters)
    (hsmooth : DifferentiableAt ℝ (fun sums : ℝ × ℝ => lossAt loss (chosenSide scorer parameters row) (rejectedSide scorer parameters row) sums.1 sums.2) (summed (scorer.chosen row.1) parameters, summed (scorer.rejected row.1) parameters)) :
    ∃ slope : E →L[ℝ] ℝ,
      HasFDerivAt (fun θ => rowLoss scorer loss row parameters θ * share) slope parameters ∧
      HasFDerivAt (fun θ =>
        memberEntropy (List.replicate row.1.chosen.completionLen (terms.chosenWeight * share))
          (scorer.chosen row.1) θ +
        memberEntropy (List.replicate row.1.rejected.completionLen (terms.rejectedWeight * share))
          (scorer.rejected row.1) θ) slope parameters := by
  have hsums := (summed_differentiable hchosen).hasFDerivAt
  have hsums' := (summed_differentiable hrejected).hasFDerivAt
  -- the loss is differentiable in both sums, so in each, and its coefficients are its slopes
  obtain ⟨hdiff, hdiff'⟩ := differentiableAt_partials hsmooth
  obtain ⟨hslope, hslope'⟩ := pair_slopes h
  have hloss := (hasFDerivAt_of_partials hsmooth (hslope (.inr hdiff))
    (hslope' (.inr hdiff'))).comp parameters (hsums.prodMk hsums')
  have hentropy (θ : E) :
      memberEntropy (List.replicate row.1.chosen.completionLen (terms.chosenWeight * share))
          (scorer.chosen row.1) θ +
        memberEntropy (List.replicate row.1.rejected.completionLen (terms.rejectedWeight * share))
          (scorer.rejected row.1) θ =
      -(terms.chosenWeight * share) * summed (scorer.chosen row.1) θ +
        -(terms.rejectedWeight * share) * summed (scorer.rejected row.1) θ := by
    rw [← scorer.chosen_length, ← scorer.rejected_length, memberEntropy_replicate,
      memberEntropy_replicate]
  refine ⟨_, hloss.mul_const share, ?_⟩
  simp only [hentropy]
  refine ((hsums.const_mul _).add (hsums'.const_mul _)).congr_fderiv ?_
  ext direction
  simp
  ring

/-! ### The rows of a chunk -/

variable {display : ℝ → String}

omit [NormedAddCommGroup E] [NormedSpace ℝ E] in
/-- Over the reals a weight is its coefficient, so a row is weighed as soon as it has terms. -/
theorem pairWeights_ok_iff {loss : PreferenceLoss ℝ} {share : ℝ} {row : Pair × Option (ℝ × ℝ)}
    {out : PairTerms ℝ × ℝ × ℝ × List (List ℝ)} :
    pairWeights display (scorer.score parameters) loss share row = .ok out ↔
      ∃ terms, pairTerms loss (chosenSide scorer parameters row)
          (rejectedSide scorer parameters row) = .ok terms ∧
        out = (terms, (chosenSide scorer parameters row).mean,
          (rejectedSide scorer parameters row).mean,
          [List.replicate row.1.chosen.completionLen (terms.chosenWeight * share),
            List.replicate row.1.rejected.completionLen (terms.rejectedWeight * share)]) := by
  have hweight (coefficient : ℝ) : batchWeight display coefficient = .ok coefficient := by
    simp [batchWeight]
  simp only [pairWeights, Scorer.score, hweight, chosenSide, rejectedSide]
  generalize pairTerms loss _ _ = result
  cases result with
  | error e => simp
  | ok terms =>
    simp only [Except.ok.injEq, exists_eq_left']
    exact eq_comm

/-- The rows of a chunk can be differentiated: every trained token's log-probability is
differentiable, and every pair's loss is at the sums it was scored with. -/
structure Smooth (scorer : Scorer E) (loss : PreferenceLoss ℝ) (parameters : E)
    (row : Pair × Option (ℝ × ℝ)) : Prop where
  chosen : ∀ logp ∈ scorer.chosen row.1, DifferentiableAt ℝ logp parameters
  rejected : ∀ logp ∈ scorer.rejected row.1, DifferentiableAt ℝ logp parameters
  loss : DifferentiableAt ℝ (fun sums : ℝ × ℝ =>
      lossAt loss (chosenSide scorer parameters row) (rejectedSide scorer parameters row)
        sums.1 sums.2)
    (summed (scorer.chosen row.1) parameters, summed (scorer.rejected row.1) parameters)

/-- The summed loss of some rows under other parameters. -/
noncomputable def rowsLoss (scorer : Scorer E) (loss : PreferenceLoss ℝ)
    (rows : List (Pair × Option (ℝ × ℝ))) (here parameters : E) : ℝ :=
  (rows.map fun row => rowLoss scorer loss row here parameters).sum

/-- **The rows of a chunk.** A chunk that is weighed under some parameters is scored under all, its
totals add the rows' losses, and its weights carry the gradient of their share. -/
theorem chunkLoop_gradient {loss : PreferenceLoss ℝ} {share : ℝ}
    {rows : List (Pair × Option (ℝ × ℝ))} {totals : StepTotals ℝ} {weights : List (List ℝ)}
    {out : StepTotals ℝ × List (List ℝ)}
    (h : chunkLoop display (scorer.score parameters) loss share rows totals weights = .ok out) :
    (∀ θ totals' weights', ∃ found,
      chunkLoop display (scorer.score θ) loss share rows totals' weights' = .ok found ∧
      found.1.loss = totals'.loss + rowsLoss scorer loss rows parameters θ ∧
      found.1.pairs = totals'.pairs + rows.length) ∧
    ∃ written, out.2 = weights ++ written ∧
      ((∀ row ∈ rows, Smooth scorer loss parameters row) → ∃ slope : E →L[ℝ] ℝ,
        HasFDerivAt (fun θ => rowsLoss scorer loss rows parameters θ * share) slope parameters ∧
        HasFDerivAt (crossEntropy written (scorer.members rows)) slope parameters) := by
  induction rows generalizing totals weights with
  | nil =>
    simp only [chunkLoop, Except.ok.injEq] at h
    subst h
    refine ⟨fun θ totals' weights' => ⟨_, rfl, by simp [rowsLoss], rfl⟩, [], by simp, ?_⟩
    intro _
    refine ⟨0, ?_, ?_⟩
    · simpa [rowsLoss] using hasFDerivAt_const (0 : ℝ) parameters
    · exact hasFDerivAt_const (0 : ℝ) parameters
  | cons row rows ih =>
    cases hrow : pairWeights display (scorer.score parameters) loss share row with
    | error e => simp [chunkLoop, hrow] at h
    | ok weighed =>
      obtain ⟨terms, hterms, rfl⟩ := pairWeights_ok_iff.mp hrow
      simp only [chunkLoop, hrow] at h
      obtain ⟨hscored, written, hwritten, hgradient⟩ := ih h
      refine ⟨fun θ totals' weights' => ?_, _, by rw [hwritten, append_assoc], ?_⟩
      · obtain ⟨found, hfound, hloss⟩ := pairTerms_withSum hterms
          (summed (scorer.chosen row.1) θ) (summed (scorer.rejected row.1) θ)
        have hweighed : pairWeights display (scorer.score θ) loss share row = .ok _ :=
          pairWeights_ok_iff.mpr ⟨found, hfound, rfl⟩
        obtain ⟨result, hresult, hsum, hpairs⟩ := hscored θ
          (totals'.addPair found (chosenSide scorer θ row).mean (rejectedSide scorer θ row).mean)
          (weights' ++ [List.replicate row.1.chosen.completionLen (found.chosenWeight * share),
            List.replicate row.1.rejected.completionLen (found.rejectedWeight * share)])
        refine ⟨result, by simp only [chunkLoop, hweighed, hresult], ?_, ?_⟩
        · rw [hsum]
          simp only [StepTotals.addPair, Number.add_real, rowsLoss, rowLoss, map_cons,
            sum_cons, hloss]
          ring
        · rw [hpairs]
          simp only [StepTotals.addPair, length_cons]
          omega
      · intro hsmooth
        obtain ⟨slope, hslope, hentropy⟩ := hgradient fun other hmem => hsmooth other (by simp [hmem])
        have hhere := hsmooth row (by simp)
        obtain ⟨first, hfirst, hfirst'⟩ :=
          row_gradient share hterms hhere.chosen hhere.rejected hhere.loss
        refine ⟨first + slope, ?_, ?_⟩
        · have hsplit (θ : E) : rowsLoss scorer loss (row :: rows) parameters θ * share =
              rowLoss scorer loss row parameters θ * share +
                rowsLoss scorer loss rows parameters θ * share := by
            rw [rowsLoss, map_cons, sum_cons, add_mul, rowsLoss]
          simp only [hsplit]
          exact hfirst.add hslope
        · have hsplit (θ : E) : crossEntropy
              ([List.replicate row.1.chosen.completionLen (terms.chosenWeight * share),
                List.replicate row.1.rejected.completionLen (terms.rejectedWeight * share)] ++
                written) (scorer.members (row :: rows)) θ =
              memberEntropy (List.replicate row.1.chosen.completionLen
                  (terms.chosenWeight * share)) (scorer.chosen row.1) θ +
                memberEntropy (List.replicate row.1.rejected.completionLen
                  (terms.rejectedWeight * share)) (scorer.rejected row.1) θ +
              crossEntropy written (scorer.members rows) θ := by
            simp [crossEntropy, Scorer.members, add_assoc]
          have heq := funext hsplit
          rw [heq]
          exact hfirst'.add hentropy

/-- The chunk a run trains: its mean loss and the cross-entropy its weights are written for move
together. -/
theorem chunk_gradient {loss : PreferenceLoss ℝ} {pairs : List (Pair × Option (ℝ × ℝ))}
    {totals : StepTotals ℝ} {weights : List (List ℝ)}
    (h : chunkTerms display (scorer.score parameters) pairs loss = .ok (totals, weights))
    (hsmooth : ∀ row ∈ pairs, Smooth scorer loss parameters row) :
    meanLossAt display scorer pairs loss parameters = totals.meanLoss ∧
      ∃ slope : E →L[ℝ] ℝ,
        HasFDerivAt (meanLossAt display scorer pairs loss) slope parameters ∧
        HasFDerivAt (crossEntropy weights (scorer.members pairs)) slope parameters := by
  refine ⟨by rw [meanLossAt, h], ?_⟩
  obtain ⟨hscored, written, hwritten, hgradient⟩ := chunkLoop_gradient h
  obtain ⟨slope, hslope, hentropy⟩ := hgradient hsmooth
  obtain rfl : weights = written := by simpa using hwritten
  -- the mean of the reported totals is the rows' loss, times the share the weights are divided by
  have hmean (θ : E) : meanLossAt display scorer pairs loss θ =
      rowsLoss scorer loss pairs parameters θ * (1.0 / Number.ofNat pairs.length) := by
    obtain ⟨found, hfound, hsum, hcount⟩ := hscored θ .zero []
    rw [meanLossAt, chunkTerms, hfound]
    have hzero : (StepTotals.zero : StepTotals ℝ).loss = 0 := by
      norm_num [StepTotals.zero]
    have hpairs : found.1.pairs = pairs.length := by simpa [StepTotals.zero] using hcount
    simp only [StepTotals.meanLoss, StepTotals.mean, hsum, hzero, hpairs, Number.ofNat_real,
      zero_add]
    cases pairs with
    | nil => simp [rowsLoss]
    | cons row rows =>
      have hmax : max (row :: rows).length 1 = (row :: rows).length :=
        Nat.max_eq_left (Nat.le_add_left 1 rows.length)
      rw [hmax]
      norm_num
      ring
  have hsame := funext hmean
  rw [hsame]
  exact ⟨slope, hslope, hentropy⟩

/-- A pair of one-token responses whose log-probabilities are the parameters themselves. -/
def tokenPair : Pair where
  promptLen := 1
  chosen := ⟨[0, 1], [false, true], []⟩
  rejected := ⟨[0, 2], [false, true], []⟩

def coordinates : Scorer (ℝ × ℝ) where
  chosen pair := List.replicate pair.chosen.completionLen Prod.fst
  rejected pair := List.replicate pair.rejected.completionLen Prod.snd
  chosen_length _ := List.length_replicate
  rejected_length _ := List.length_replicate

/-- Sides of one token each, both at a reference of zero. -/
def certainSide (sum : ℝ) : SideScores ℝ := ⟨sum, 1, some 0⟩

theorem certain_terms (s t : ℝ) : pairTerms (.ipo 1) (certainSide s) (certainSide t) =
    .ok (ipoTerms 1 (certainSide s) (certainSide t) 0 0) :=
  pairTerms_ok_iff.mpr ⟨one_ne_zero, one_ne_zero, rfl⟩

end Retrograd.Training.Preference
