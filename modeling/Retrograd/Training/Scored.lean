import Retrograd.Training.Drawn

/-!
# Scoring a wave

A wave's completions go to the reward command in one list and the verdicts come back in another,
both flat; here each entry is put back to the member it belongs to. The verdicts of one group
are one block of the judge's answer (`dealVerdicts_spec`), and the reward of one member is the
command's answer to its own completion plus the judge's term for it. `DrawnGroup` says all of it
about one group, and `wave_spec` establishes it for every group of a wave.
-/

namespace Retrograd.Training

open List Option
open Infer (Token)
open Logic

variable {σ : Type} {out : Outside σ} {size : ℕ}

/-! ### Pairs -/

variable {prompts : List Prompt} {candidates : List Candidate} {pairs : List (String × String)}

/-- The pair of member `m` of candidate `k` stands at `k * size + m`. -/
theorem rewardPairs_spec (hsize : 0 < size) (hlen : ∀ c ∈ candidates, c.completions.length = size)
    (h : rewardPairs prompts candidates = .ok pairs) :
    pairs.length = candidates.length * size ∧ ∀ (k : ℕ) (c : Candidate),
      candidates[k]? = some c → ∃ prompt, prompts[c.promptSlot]? = some prompt ∧
        ∀ (m : ℕ) (text : String), c.completions[m]? = some text →
          pairs[k * size + m]? = some (prompt.rewardText, text) := by
  obtain ⟨groups, hgroups, h⟩ := ok_of_bind h
  cases h
  have hall := forall₂_of_mapM hgroups
  have hblock : ∀ (k : ℕ) (g : List (String × String)), groups[k]? = some g →
      ∃ c prompt, candidates[k]? = some c ∧ prompts[c.promptSlot]? = some prompt ∧
        g = c.completions.map fun text => (prompt.rewardText, text) := by
    intro k g hg
    obtain ⟨c, hc, hmade⟩ := forall₂_getElem? hall hg
    have hne : c.completions.isEmpty = false := by
      have := hlen c (mem_of_getElem? hc)
      rw [isEmpty_eq_false_iff, ← length_pos_iff]
      omega
    cases hp : prompts[c.promptSlot]? with
    | none => simp [hp, hne] at hmade
    | some prompt => simp only [hp, Except.ok.injEq] at hmade; exact ⟨c, prompt, hc, hp, hmade.symm⟩
  have hgroupLen : ∀ g ∈ groups, (id g).length = size := by
    intro g hg
    obtain ⟨k, hk⟩ := mem_iff_getElem?.mp hg
    obtain ⟨c, prompt, hc, -, rfl⟩ := hblock k g hk
    simpa using hlen c (mem_of_getElem? hc)
  have hflat : groups.flatten = groups.flatMap id := flatMap_id.symm
  rw [hflat]
  refine ⟨by rw [length_flatMap_blocks hgroupLen, hall.length_eq], fun k c hc => ?_⟩
  have hk : k < groups.length := hall.length_eq ▸ (List.getElem?_eq_some_iff.mp hc).1
  obtain ⟨c', prompt, hc', hp, hg⟩ := hblock k groups[k] (getElem?_eq_getElem hk)
  obtain rfl : c = c' := some.inj (hc.symm.trans hc')
  refine ⟨prompt, hp, fun m text ht => ?_⟩
  have hm : m < size := hlen c (mem_of_getElem? hc) ▸ (List.getElem?_eq_some_iff.mp ht).1
  rw [getElem?_flatMap hm hgroupLen, getElem?_eq_getElem hk, hg]
  simp [ht]

/-! ### Verdicts -/

/-- Where a group's verdicts come from: nowhere, or the judge's answer for its completions. -/
def VerdictSource (out : Outside σ) (prompts : List Prompt) (size promptSlot : ℕ)
    (completions : List String) (verdicts : List (Option JudgeVerdict)) : Prop :=
  verdicts = List.replicate size none ∨ ∃ prompt, prompts[promptSlot]? = some prompt ∧
    Answered out ⟨promptSlot, prompt, completions⟩ verdicts

/-- The verdicts dealt to one candidate, and whether it counts as judged. -/
structure Dealt (out : Outside σ) (prompts : List Prompt) (size : ℕ) (entry : Candidate × Bool)
    (dealt : List (Option JudgeVerdict) × Bool) : Prop where
  length : dealt.1.length = size
  source : VerdictSource out prompts size entry.1.promptSlot entry.1.completions dealt.1
  judged : dealt.2 = (!entry.2 || dealt.1.all Option.isSome)

/-- The request sent to the judge for one asked candidate. -/
private def askJudge (prompts : List Prompt) (entry : Candidate × Bool) :
    Except Error JudgeGroup :=
  match prompts[entry.1.promptSlot]? with
  | none => .error (.panic "index out of bounds")
  | some prompt => .ok ⟨entry.1.promptSlot, prompt, entry.1.completions⟩

private theorem take_block {block rest : List (Option JudgeVerdict)} (h : block.length = size) :
    ((List.range size).map fun m => ((block ++ rest)[m]?).join) = block := by
  refine ext_getElem (by simp [h]) fun m hm hm' => ?_
  simp [getElem?_append_left hm', getElem?_eq_getElem hm']

/-- The flat answer of the judge is dealt back block by block, one to each asked candidate. -/
theorem dealVerdicts_spec {entries : List (Candidate × Bool)} {groups : List JudgeGroup}
    {blocks : List (List (Option JudgeVerdict))}
    (hlen : ∀ entry ∈ entries, entry.1.completions.length = size)
    (hgroups : (entries.filter fun entry => entry.2).mapM (askJudge prompts) = .ok groups)
    (hblocks : Forall₂ (VerdictBlock out) groups blocks) :
    ∃ dealt, dealVerdicts size (entries.map Prod.snd) blocks.flatten =
      ((dealt.map Prod.fst).flatten, dealt.map Prod.snd) ∧
      Forall₂ (Dealt out prompts size) entries dealt := by
  induction entries generalizing groups blocks with
  | nil => exact ⟨[], rfl, .nil⟩
  | cons entry rest ih =>
    have hrest : ∀ e ∈ rest, e.1.completions.length = size :=
      fun e he => hlen e (mem_cons_of_mem _ he)
    obtain ⟨candidate, asked⟩ := entry
    cases asked with
    | false =>
      obtain ⟨dealt, hdealt, hall⟩ := ih hrest hgroups hblocks
      refine ⟨(List.replicate size none, true) :: dealt, ?_, .cons ⟨by simp, .inl rfl, rfl⟩ hall⟩
      simp [dealVerdicts, hdealt]
    | true =>
      rw [filter_cons_of_pos rfl, mapM_cons] at hgroups
      obtain ⟨group, hgroup, hgroups⟩ := ok_of_bind hgroups
      obtain ⟨others, hothers, hgroups⟩ := ok_of_bind hgroups
      cases hgroups
      cases hblocks with
      | @cons _ block _ blocks hblock hblocks =>
        obtain ⟨dealt, hdealt, hall⟩ := ih hrest hothers hblocks
        have hmade : ∃ prompt, prompts[candidate.promptSlot]? = some prompt ∧
            group = ⟨candidate.promptSlot, prompt, candidate.completions⟩ := by
          unfold askJudge at hgroup
          split at hgroup
          · cases hgroup
          · next prompt hp => cases hgroup; exact ⟨prompt, hp, rfl⟩
        obtain ⟨prompt, hprompt, rfl⟩ := hmade
        have hsize : block.length = size := by
          rw [hblock.length]
          exact hlen _ mem_cons_self
        have hsource : VerdictSource out prompts size candidate.promptSlot
            candidate.completions block := by
          rcases hblock.source with hnone | hanswered
          · refine .inl (hnone.trans ?_)
            rw [show candidate.completions.length = size from hlen _ mem_cons_self]
          · exact .inr ⟨prompt, hprompt, hanswered⟩
        refine ⟨(block, block.all Option.isSome) :: dealt, ?_,
          .cons ⟨hsize, hsource, by simp⟩ hall⟩
        have hdrop : (block ++ blocks.flatten).drop size = blocks.flatten :=
          drop_left' hsize
        simp only [map_cons, flatten_cons, dealVerdicts, if_true, take_block hsize, hdrop,
          hdealt, Bool.not_true, Bool.false_or]

/-- A group that does not count as judged has no verdict at all. -/
theorem Dealt.dropped {entry : Candidate × Bool} {dealt : List (Option JudgeVerdict) × Bool}
    (h : Dealt out prompts size entry dealt) (hjudged : dealt.2 = false) :
    dealt.1 = List.replicate size none := by
  rcases h.source with hnone | ⟨prompt, -, asked, results, s, s', k, ts, scores, -, -, -, -, hs⟩
  · exact hnone
  · have hall : dealt.1.all Option.isSome = true := by
      rw [hs, List.all_map]
      exact List.all_eq_true.mpr fun _ _ => rfl
    rw [h.judged, hall, Bool.or_true] at hjudged
    cases hjudged

/-! ### Rewards -/

/-- The judge's term and the reward of one member, from its row and its verdict. -/
def credit (judge : Option GroupJudge) (row : RewardRow) (verdict : Option JudgeVerdict) :
    Float32 × Float32 :=
  match judge with
  | none => (0, row.reward)
  | some judge =>
    let term := judgeTerm (row.judgeWeight.getD judge.weight) verdict
    (term, row.reward + term)

/-- A wave's rewards: one verdict for every row, and every reward its own row's credit. -/
structure JudgedOf (out : Outside σ) (setup : Setup) (size : ℕ) (candidates : List Candidate)
    (rows : List RewardRow) (round : JudgedRound) : Prop where
  verdicts : round.judgeVerdicts.length = rows.length
  terms : round.judgeTerms =
    rows.zipWith (fun row verdict => (credit setup.judge row verdict).1) round.judgeVerdicts
  rewards : round.rewards =
    rows.zipWith (fun row verdict => (credit setup.judge row verdict).2) round.judgeVerdicts
  dealt : ∃ (asked : List Bool) (dealt : List (List (Option JudgeVerdict) × Bool)),
    round.judgeVerdicts = (dealt.map Prod.fst).flatten ∧ round.judged = dealt.map Prod.snd ∧
    asked.length = candidates.length ∧
    List.Forall₂ (Dealt out setup.prompts size) (candidates.zip asked) dealt

private theorem length_chunks {α : Type} {l : List α} {n : ℕ} (hsize : 0 < size)
    (hlen : l.length = n * size) : (chunks size l).length = n := by
  rw [chunks, length_map, length_range, hlen]
  have h : n * size + size - 1 = (size - 1) + n * size := by omega
  rw [h, Nat.add_mul_div_right _ _ hsize, Nat.div_eq_of_lt (by omega), Nat.zero_add]

private theorem zipWith_replicate {α β γ : Type} (f : α → β → γ) (l : List α) (b : β) :
    l.zipWith f (List.replicate l.length b) = l.map fun a => f a b := by
  induction l with
  | nil => rfl
  | cons a l ih => simp [replicate_succ, ih]

variable {setup : Setup}

theorem judgeRound_returns {rows : List RewardRow} {tally : JudgeTally} (hsize : 0 < size)
    (hlen : ∀ c ∈ candidates, c.completions.length = size)
    (hrows : rows.length = candidates.length * size) :
    Returns (judgeRound out setup size candidates rows tally) fun result =>
      JudgedOf out setup size candidates rows result.1 := by
  unfold judgeRound
  cases hjudge : setup.judge with
  | none =>
    refine Returns.pure ⟨by simp, ?_, ?_, List.replicate candidates.length false,
      List.replicate candidates.length (List.replicate size none, true), ?_, ?_, by simp, ?_⟩
    · rw [hjudge, zipWith_replicate]
      simp [credit, map_const']
    · rw [hjudge, zipWith_replicate]
      simp [credit]
    · simp [hrows]
    · simp
    · clear hrows hlen
      induction candidates with
      | nil => exact .nil
      | cons c rest ih => exact .cons ⟨by simp, .inl rfl, rfl⟩ ih
  | some judge =>
    have hasked : ((chunks size (rows.map fun row => row.judgeWeight.getD judge.weight)).map
        fun group => group.any fun weight => 0 < weight).length = candidates.length := by
      rw [length_map, length_chunks hsize (by rw [length_map, hrows])]
    generalize hgen : (chunks size (rows.map fun row => row.judgeWeight.getD judge.weight)).map
      (fun group => group.any fun weight => 0 < weight) = asked at hasked
    simp only [hgen]
    refine (returns_check fun groups h => h).bind fun groups hgroups => ?_
    refine Returns.bind (P := fun (result : List (Option JudgeVerdict) × JudgeTally) => ∃ blocks, result.1 = blocks.flatten ∧
      Forall₂ (VerdictBlock out) groups blocks) ?_ fun ⟨scored, tally'⟩ ⟨blocks, hs, hb⟩ => ?_
    · refine Returns.ite (fun hempty => Returns.pure ⟨[], rfl, ?_⟩) fun _ => GroupJudge.score_returns
      rw [List.isEmpty_iff.mp hempty]
      exact .nil
    · obtain rfl : scored = blocks.flatten := hs
      have hzipLen : ∀ entry ∈ candidates.zip asked, entry.1.completions.length = size :=
        fun entry he => hlen _ (of_mem_zip he).1
      obtain ⟨dealt, hdealt, hall⟩ := dealVerdicts_spec hzipLen hgroups hb
      rw [map_snd_zip (by omega)] at hdealt
      have hverdicts : ((dealt.map Prod.fst).flatten).length = rows.length := by
        have hblocks : ∀ d ∈ dealt, d.1.length = size := by
          intro d hd
          obtain ⟨k, hk⟩ := mem_iff_getElem?.mp hd
          exact (forall₂_getElem? hall hk).elim fun _ h => h.2.length
        rw [← flatMap_def, length_flatMap_blocks hblocks, ← hall.length_eq, length_zip,
          hasked, min_self, hrows]
      simp only [hdealt]
      refine Returns.pure ⟨hverdicts, ?_, ?_, asked, dealt, rfl, rfl, hasked, hall⟩
      · rw [hjudge, zipWith_map_left]
        rfl
      · rw [hjudge, zipWith_map_left]
        refine ext_getElem (by simp) fun i hi hi' => ?_
        simp [credit]

/-! ### One group -/

/-- Member `m` of a group is credited with one response of the reward command. -/
structure Credited (judge : Option GroupJudge) (group : SpareGroup) (m : ℕ)
    (response : RewardResponse) : Prop where
  verifiable : group.verifiableRewards[m]? = some response.reward
  blended : ∃ verdict, group.judgeVerdicts[m]? = some verdict ∧
    group.judgeTerms[m]? = some (credit judge response.row verdict).1 ∧
    group.rewards[m]? = some (credit judge response.row verdict).2

/-- A scored group as it was drawn at one position of the prompt cursor: one entry for each
member in every vector, each of them that member's own. -/
structure DrawnGroup (out : Outside σ) (config : GrpoConfig) (setup : Setup) (offset : ℕ)
    (group : SpareGroup) : Prop where
  sized : group.Sized config.groupSize
  seeds : group.seeds = (List.range config.groupSize).map fun m =>
    (config.sampling.seed + (offset * config.groupSize + m)) % 2 ^ 32
  sampled : ∃ tokens : List Token, setup.promptRows[group.promptSlot]? = some tokens ∧
    ∀ (m : ℕ) (rollout : Rollout) (text : String), group.rollouts[m]? = some rollout →
      group.completions[m]? = some text → SampledAfter out tokens (rollout, text)
  credited : ∃ (prompt : Prompt) (requests : List RewardRequest)
    (responses : List RewardResponse) (s s' : σ) (base : ℕ),
    setup.prompts[group.promptSlot]? = some prompt ∧
    out.rewardLines requests s = (.ok responses, s') ∧
    ∀ (m : ℕ) (text : String), group.completions[m]? = some text →
      requests[base + m]? = some ⟨prompt.rewardText, text, none⟩ ∧
      ∃ response, responses[base + m]? = some response ∧ Credited setup.judge group m response
  verdicts : VerdictSource out setup.prompts config.groupSize group.promptSlot group.completions
    group.judgeVerdicts
  dropped : group.judged = false → group.judgeVerdicts = List.replicate config.groupSize none

private theorem slice_ok {α : Type} {l part : List α} {offset len : ℕ}
    (h : slice l offset len = .ok part) : part.length = len ∧
      ∀ m, m < len → part[m]? = l[offset + m]? := by
  unfold slice at h
  split at h
  · next hle =>
    cases h
    refine ⟨by rw [length_take, length_drop]; omega, fun m hm => ?_⟩
    rw [getElem?_take_of_lt hm, getElem?_drop]
  · cases h

/-- The slices of a wave's vectors at one candidate's members make it a drawn group. -/
theorem scoredGroup_spec {config : GrpoConfig} {offset k : ℕ} {candidate : Candidate}
    {judged : Bool} {rows : List RewardRow} {round : JudgedRound} {group : SpareGroup}
    (hsize : 0 < config.groupSize)
    (hlen : ∀ c ∈ candidates, c.completions.length = config.groupSize)
    (hcandidate : CandidateAt out config setup offset candidate)
    (hk : candidates[k]? = some candidate)
    (hpairs : rewardPairs setup.prompts candidates = .ok pairs) (hrows : RowsOf out pairs rows)
    (hround : JudgedOf out setup config.groupSize candidates rows round)
    (hjudged : round.judged[k]? = some judged)
    (h : scoredGroup config.groupSize (k * config.groupSize) candidate judged rows round = .ok group) :
    DrawnGroup out config setup offset group := by
  obtain ⟨groupRows, hrow, h⟩ := ok_of_bind h
  obtain ⟨rewards, hreward, h⟩ := ok_of_bind h
  obtain ⟨terms, hterm, h⟩ := ok_of_bind h
  obtain ⟨verdicts, hverdict, h⟩ := ok_of_bind h
  cases h
  obtain ⟨hrowLen, hrowAt⟩ := slice_ok hrow
  obtain ⟨hrewardLen, hrewardAt⟩ := slice_ok hreward
  obtain ⟨htermLen, htermAt⟩ := slice_ok hterm
  obtain ⟨hverdictLen, hverdictAt⟩ := slice_ok hverdict
  obtain ⟨responses, s, s', hcall, hcount, rfl⟩ := hrows
  obtain ⟨-, hpairAt⟩ := rewardPairs_spec hsize hlen hpairs
  obtain ⟨prompt, hprompt, hpairAt⟩ := hpairAt k candidate hk
  obtain ⟨asked, dealt, hflat, hflags, hasked, hall⟩ := hround.dealt
  -- the group's verdicts are its own block of the wave's
  obtain ⟨d, hd, rfl⟩ : ∃ d, dealt[k]? = some d ∧ d.2 = judged := by
    rw [hflags, getElem?_map, map_eq_some_iff] at hjudged
    exact hjudged
  obtain ⟨entry, hentry, hdealt⟩ := forall₂_getElem? hall hd
  obtain rfl : entry.1 = candidate :=
    some.inj ((getElem?_zip_eq_some.mp hentry).1.symm.trans hk)
  have hblocks : ∀ d ∈ dealt, d.1.length = config.groupSize := by
    intro d hd
    obtain ⟨i, hi⟩ := mem_iff_getElem?.mp hd
    exact (forall₂_getElem? hall hi).elim fun _ h => h.2.length
  have hown : verdicts = d.1 := by
    refine ext_getElem? fun m => ?_
    by_cases hm : m < config.groupSize
    · rw [hverdictAt m hm, hflat, ← flatMap_def, getElem?_flatMap hm hblocks, hd]
      rfl
    · rw [getElem?_eq_none (by omega), getElem?_eq_none (by rw [hdealt.length]; omega)]
  refine
    { sized := ⟨hcandidate.rollouts, hcandidate.completions, by simp [hcandidate.seeds],
        hrewardLen, by simpa using hrowLen, htermLen, hverdictLen⟩
      seeds := hcandidate.seeds
      sampled := hcandidate.sampled
      credited := ⟨prompt, _, responses, s, s', k * config.groupSize, hprompt, hcall,
        fun m text htext => ?_⟩
      verdicts := hown ▸ hdealt.source
      dropped := fun hdropped => hown ▸ hdealt.dropped hdropped }
  have hm : m < config.groupSize :=
    hcandidate.completions ▸ (List.getElem?_eq_some_iff.mp htext).1
  have hpair := hpairAt m text htext
  have hpos : k * config.groupSize + m < responses.length := by
    rw [hcount]
    exact (List.getElem?_eq_some_iff.mp hpair).1
  have hresponse := getElem?_eq_getElem hpos
  obtain ⟨verdict, hv⟩ : ∃ verdict, verdicts[m]? = some verdict :=
    ⟨_, getElem?_eq_getElem (by omega)⟩
  have hv' : round.judgeVerdicts[k * config.groupSize + m]? = some verdict :=
    (hverdictAt m hm).symm.trans hv
  refine ⟨by simp [getElem?_map, hpair], _, hresponse, ?_, verdict, hv, ?_, ?_⟩
  · simp only [getElem?_map, hrowAt m hm, hresponse, map_some]
    rfl
  · rw [htermAt m hm, hround.terms, getElem?_zipWith, getElem?_map, hresponse, hv']
    rfl
  · rw [hrewardAt m hm, hround.rewards, getElem?_zipWith, getElem?_map, hresponse, hv']
    rfl

/-! ### One wave -/

/-- The rewards of a wave's pairs, in one call when a judge scores them too. -/
private def rowsFor (out : Outside σ) (setup : Setup) (pairs : List (String × String)) :
    OutM σ (List RewardRow) :=
  match setup.judge with
  | some _ => scoreRows out pairs
  | none => score out pairs

private theorem rowsFor_returns (setup : Setup) :
    Returns (rowsFor out setup pairs) (RowsOf out pairs) := by
  unfold rowsFor
  split
  · exact scoreRows_returns
  · exact score_returns

/-- A wave draws `round` groups at consecutive positions of the cursor, each a drawn group, and
places them one after the other. -/
theorem wave_spec {config : GrpoConfig} {round : ℕ} {acc : Assembly} {run : Run σ}
    (hsize : 0 < config.groupSize) : wp (wave out config setup round acc) (fun acc' run' =>
      run'.promptCursor = run.promptCursor + round ∧ ∃ (groups : List SpareGroup) (tally : JudgeTally),
        groups.length = round ∧
        (∀ (k : ℕ) (g : SpareGroup), groups[k]? = some g →
          DrawnGroup out config setup (run.promptCursor + k) g) ∧
        acc' = groups.foldl (placeGroup config setup.lossDenominator)
          { acc with groupsSampled := acc.groupsSampled + round, judgeTally := tally })
      (fun _ _ => True) run := by
  unfold wave
  rw [wp_bind]
  refine wp_mono (draws_spec (List.range round)) ?_ fun _ _ h => h
  rintro draws run₁ ⟨hdraws, hcursor, hdraw⟩
  rw [length_range] at hdraws hcursor
  rw [wp_bind]
  refine wp_mono (wp_outside (sampleRolloutGroupsContinuous_returns out)) ?_ fun _ _ h => h
  rintro sampled run₂ ⟨hsampled, hcursor₂, _⟩
  generalize hcandidates : draws.zipWith (makeCandidate config.sampling) sampled = candidates
  have hsampledLen : draws.length = sampled.length := by simpa using hsampled.length_eq
  have hcount : candidates.length = round := by
    rw [← hcandidates, length_zipWith]
    omega
  have hcandidateAt : ∀ (k : ℕ) (c : Candidate), candidates[k]? = some c →
      CandidateAt out config setup (run.promptCursor + k) c := by
    intro k c hc
    rw [← hcandidates, getElem?_zipWith_eq_some] at hc
    obtain ⟨draw, group, hd, hg, rfl⟩ := hc
    obtain ⟨request, hrequest, hgroup⟩ := forall₂_getElem? hsampled hg
    rw [getElem?_map, hd, map_some, some.injEq] at hrequest
    exact makeCandidate_spec (hdraw k draw hd) (hrequest ▸ hgroup)
  have hlen : ∀ c ∈ candidates, c.completions.length = config.groupSize := by
    intro c hc
    obtain ⟨k, hk⟩ := mem_iff_getElem?.mp hc
    exact (hcandidateAt k c hk).completions
  simp only [wp_bind]
  refine wp_mono (wp_outside (returns_check fun pairs h => h)) ?_ fun _ _ h => h
  rintro pairs run₃ ⟨hpairs, hcursor₃, _⟩
  refine wp_mono (wp_outside (rowsFor_returns setup)) ?_ fun _ _ h => h
  rintro rows run₄ ⟨hrows, hcursor₄, _⟩
  have hrowsLen : rows.length = candidates.length * config.groupSize := by
    obtain ⟨responses, s, s', -, hresponses, rfl⟩ := hrows
    rw [length_map, hresponses, (rewardPairs_spec hsize hlen hpairs).1]
  refine wp_mono (wp_outside (judgeRound_returns hsize hlen hrowsLen)) ?_ fun _ _ h => h
  rintro ⟨judged, tally⟩ run₅ ⟨hjudged, hcursor₅, _⟩
  refine wp_mono (wp_outside (returns_check fun groups h => h)) ?_ fun _ _ h => h
  rintro groups run₆ ⟨hgroups, hcursor₆, _⟩
  have hall := forall₂_of_mapM hgroups
  obtain ⟨asked, dealt, -, hflags, hasked, hdealt⟩ := hjudged.dealt
  have hflagsLen : judged.judged.length = candidates.length := by
    rw [hflags, length_map, ← hdealt.length_eq, length_zip, hasked, min_self]
  refine ⟨by omega, groups, tally, ?_, fun k g hg => ?_, rfl⟩
  · rw [← hall.length_eq, length_zipIdx, length_zip, hflagsLen, min_self, hcount]
  · obtain ⟨entry, hentry, hscored⟩ := forall₂_getElem? hall hg
    rw [getElem?_zipIdx, map_eq_some_iff] at hentry
    obtain ⟨⟨c, flag⟩, hzip, rfl⟩ := hentry
    obtain ⟨hc, hflag⟩ := getElem?_zip_eq_some.mp hzip
    simp only [Nat.zero_add] at hscored
    exact scoredGroup_spec hsize hlen (hcandidateAt k c hc) hc hpairs hrows hjudged hflag hscored

end Retrograd.Training
