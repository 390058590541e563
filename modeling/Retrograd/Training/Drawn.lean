import Retrograd.Training.Slots

/-!
# What one wave draws

The facts one wave establishes about the groups it draws, stage by stage: the draws take
consecutive positions of the prompt cursor, every candidate has one rollout, text and seed for
each member, every reward row answers the request its own completion was sent in, and every
verdict is the judge's for that completion. `DrawnGroup` collects them for one group, and
`wave_spec` gives the whole wave.
-/

namespace Retrograd.Training

open List
open Infer (Token)
open Logic

variable {σ : Type} {out : Outside σ}

/-! ### Running against the outside -/

/-- A program against the outside leaves the rest of the run as it is. -/
theorem wp_outside {α : Type} {m : OutM σ α} {P : α → Prop} (h : Returns m P) {run : Run σ} :
    wp (outside m) (fun a run' => P a ∧ run'.promptCursor = run.promptCursor ∧
      run'.promptDraws = run.promptDraws) (fun _ _ => True) run := by
  refine wp_intro (fun a run' hm => ?_) fun _ _ _ => trivial
  unfold outside at hm
  cases hrun : m run.outside with
  | ok a' o => rw [hrun] at hm; cases hm; exact ⟨h.of_ok hrun, rfl, rfl⟩
  | error e o => rw [hrun] at hm; cases hm

theorem returns_ask {α : Type} {call : σ → Except Error α × σ} :
    Returns (ask call) fun a => ∃ s s', call s = (.ok a, s') := by
  refine fun s => wp_intro (fun a s' h => ?_) fun _ _ _ => trivial
  unfold ask at h
  split at h
  · next hcall => cases h; exact ⟨s, _, hcall⟩
  · cases h

/-! ### Draws -/

/-- The draw at one position of the cursor. -/
structure DrawAt (setup : Setup) (groupSize offset : ℕ) (draw : Draw) : Prop where
  tokens : setup.promptRows[draw.promptSlot]? = some draw.tokens
  seedOffsets : draw.seedOffsets = (List.range groupSize).map fun m => offset * groupSize + m

private theorem seedOffsets_eq {groupSize offset : ℕ} {seeds : List ℕ}
    (h : (List.range groupSize).mapM (seedOffset groupSize offset) = .ok seeds) :
    seeds = (List.range groupSize).map fun m => offset * groupSize + m := by
  have hall := forall₂_of_mapM h
  refine (forall₂_eq_eq_eq ▸ forall₂_map_left_iff.mpr (hall.imp fun m seed hm => ?_)
    : _ = _).symm
  unfold seedOffset at hm
  split at hm
  · exact Except.ok.inj hm
  · cases hm

theorem drawPrompt_spec {setup : Setup} {groupSize : ℕ} {run : Run σ} :
    wp (drawPrompt setup groupSize) (fun draw run' =>
      DrawAt setup groupSize run.promptCursor draw ∧
      run'.promptCursor = run.promptCursor + 1) (fun _ _ => True) run := by
  unfold drawPrompt
  simp only [wp_bind, wp_get, wp_set]
  cases run.promptDraws.slot run.promptCursor with
  | error e => trivial
  | ok entry =>
    obtain ⟨slot, draws⟩ := entry
    simp only [wp_bind, wp_modify]
    cases hrow : setup.promptRows[slot]? with
    | none => trivial
    | some tokens =>
      cases hseeds : (List.range groupSize).mapM (seedOffset groupSize run.promptCursor) with
      | error e => trivial
      | ok seedOffsets => exact ⟨⟨hrow, seedOffsets_eq hseeds⟩, rfl⟩

/-- A wave's draws take consecutive positions of the cursor. -/
theorem draws_spec {setup : Setup} {groupSize : ℕ} (l : List ℕ) {run : Run σ} :
    wp (l.mapM fun _ => drawPrompt setup groupSize) (fun draws run' =>
      draws.length = l.length ∧ run'.promptCursor = run.promptCursor + l.length ∧
      ∀ k draw, draws[k]? = some draw → DrawAt setup groupSize (run.promptCursor + k) draw)
      (fun _ _ => True) run := by
  induction l generalizing run with
  | nil =>
    rw [mapM_nil, wp_pure]
    exact ⟨rfl, rfl, fun k draw h => by simp at h⟩
  | cons _ l ih =>
    rw [mapM_cons, wp_bind]
    refine wp_mono drawPrompt_spec (fun draw mid ⟨hdraw, hcursor⟩ => ?_) fun _ _ h => h
    rw [wp_bind]
    refine wp_mono ih (fun draws run' ⟨hlen, hcursor', hall⟩ => ?_) fun _ _ h => h
    refine ⟨by simp [hlen], by rw [hcursor', hcursor, length_cons]; omega, fun k d hd => ?_⟩
    cases k with
    | zero =>
      rw [getElem?_cons_zero, Option.some.injEq] at hd
      exact hd ▸ hdraw
    | succ k =>
      rw [getElem?_cons_succ] at hd
      have h := hall k d hd
      rw [hcursor, Nat.add_assoc, Nat.add_comm 1 k] at h
      exact h

/-! ### Candidates -/

/-- A sampled group: one rollout, text and seed for each member of its draw. -/
structure CandidateAt (out : Outside σ) (config : GrpoConfig) (setup : Setup) (offset : ℕ)
    (candidate : Candidate) : Prop where
  rollouts : candidate.rollouts.length = config.groupSize
  completions : candidate.completions.length = config.groupSize
  seeds : candidate.seeds = (List.range config.groupSize).map fun m =>
    (config.sampling.seed + (offset * config.groupSize + m)) % 2 ^ 32
  sampled : ∃ tokens : List Token, setup.promptRows[candidate.promptSlot]? = some tokens ∧
    ∀ (m : ℕ) (rollout : Rollout) (text : String), candidate.rollouts[m]? = some rollout →
      candidate.completions[m]? = some text → SampledAfter out tokens (rollout, text)

theorem makeCandidate_spec {config : GrpoConfig} {setup : Setup} {offset : ℕ} {draw : Draw}
    {group : List (Rollout × String)} (hdraw : DrawAt setup config.groupSize offset draw)
    (hgroup : SampledGroup out (draw.tokens, draw.seedOffsets) group) :
    CandidateAt out config setup offset (makeCandidate config.sampling draw group) := by
  have hoffsets : draw.seedOffsets.length = config.groupSize := by simp [hdraw.seedOffsets]
  have hlen : draw.seedOffsets.length = group.length := hgroup.length.symm
  have hsnd : (draw.seedOffsets.zip group).map Prod.snd = group :=
    map_snd_zip (by omega)
  have hfst : (draw.seedOffsets.zip group).map Prod.fst = draw.seedOffsets :=
    map_fst_zip (by omega)
  have hrollouts : (makeCandidate config.sampling draw group).rollouts = group.map Prod.fst := by
    simp only [makeCandidate]
    nth_rewrite 2 [← hsnd]
    rw [map_map]
    rfl
  have hcompletions : (makeCandidate config.sampling draw group).completions =
      group.map Prod.snd := by
    simp only [makeCandidate]
    nth_rewrite 2 [← hsnd]
    rw [map_map]
    rfl
  refine ⟨?_, ?_, ?_, draw.tokens, hdraw.tokens, fun m rollout text hr ht => ?_⟩
  · rw [hrollouts, length_map]; omega
  · rw [hcompletions, length_map]; omega
  · calc (makeCandidate config.sampling draw group).seeds
        = ((draw.seedOffsets.zip group).map Prod.fst).map fun o =>
            (config.sampling.seed + o) % 2 ^ 32 := by
          simp only [makeCandidate, map_map]; rfl
      _ = _ := by rw [hfst, hdraw.seedOffsets, map_map]; rfl
  · rw [hrollouts, getElem?_map, Option.map_eq_some_iff] at hr
    rw [hcompletions, getElem?_map, Option.map_eq_some_iff] at ht
    obtain ⟨member, hmember, rfl⟩ := hr
    obtain ⟨member', hmember', rfl⟩ := ht
    obtain rfl : member = member' := Option.some.inj (hmember.symm.trans hmember')
    exact hgroup.sampled member (mem_of_getElem? hmember)

/-! ### Reward rows -/

/-- The row a response becomes. -/
def RewardResponse.row (response : RewardResponse) : RewardRow :=
  ⟨response.reward, response.judgeWeight⟩

/-- The rows of a wave are the responses to one call for its pairs. -/
def RowsOf (out : Outside σ) (pairs : List (String × String)) (rows : List RewardRow) : Prop :=
  ∃ responses s s', out.rewardLines (pairs.map fun pair => ⟨pair.1, pair.2, none⟩) s =
    (.ok responses, s') ∧ responses.length = pairs.length ∧
    rows = responses.map RewardResponse.row

private theorem map_of_zipIdx_mapM {α β : Type} {f : α → ℕ → Except Error β} {g : α → β}
    (hf : ∀ a i b, f a i = .ok b → b = g a) {l : List α} {bs : List β}
    (h : (l.zipIdx.mapM fun entry => f entry.1 entry.2) = .ok bs) : bs = l.map g := by
  have hall := forall₂_of_mapM h
  have hmap : l.zipIdx.map (fun entry => g entry.1) = bs :=
    forall₂_eq_eq_eq ▸ forall₂_map_left_iff.mpr
      (hall.imp fun entry b hb => (hf _ _ _ hb).symm)
  rw [← hmap, ← zipIdx_map_fst 0 l, map_map, zipIdx_map_fst]
  rfl

theorem scoreRows_returns {pairs : List (String × String)} :
    Returns (scoreRows out pairs) (RowsOf out pairs) := by
  refine Returns.bind (P := fun responses => ∃ s s', out.rewardLines
    (pairs.map fun pair => ⟨pair.1, pair.2, none⟩) s = (.ok responses, s') ∧
    responses.length = pairs.length) ?_ fun responses ⟨s, s', hcall, hlen⟩ => ?_
  · refine returns_ask.bind fun responses ⟨s, s', hcall⟩ => ?_
    split
    · exact Returns.throw
    · next hcount => exact Returns.pure ⟨s, s', hcall, by simpa using hcount⟩
  · refine returns_check fun rows hrows => ⟨responses, s, s', hcall, hlen, ?_⟩
    refine map_of_zipIdx_mapM (fun row i b hb => ?_) hrows
    unfold rewardRow at hb
    split at hb
    · cases hb
    · split at hb
      · cases hb
      · cases hb; rfl

theorem score_returns {pairs : List (String × String)} :
    Returns (score out pairs) (RowsOf out pairs) := by
  refine scoreRows_returns.bind fun rows ⟨responses, s, s', hcall, hlen, hrows⟩ => ?_
  refine returns_check fun rows' hrows' => ⟨responses, s, s', hcall, hlen, ?_⟩
  rw [← hrows, map_of_zipIdx_mapM (g := id) (fun row i b hb => ?_) hrows', map_id]
  unfold scalarRow at hb
  split at hb
  · next hnone =>
    cases hb
    rw [id, ← hnone]
  · cases hb

end Retrograd.Training
