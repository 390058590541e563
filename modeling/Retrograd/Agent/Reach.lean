import Retrograd.Agent.Batches
import Retrograd.Logic.Except

/-!
# What a rollout does to one member

The abstract side of the lockstep loop: a member alone, as a transition system. A member is
about to sample a turn, waits on its environment with a parsed turn, or waits on the template with
an observation (`Phase`); `MemberStep` lists everything that may happen to it next. The group's
loop **refines** it: whatever the world answers, every stage of a turn moves every member along
these steps, so that a property the steps keep holds of every member of every rollout.

What the world may answer is a parameter of the system (`Answers`): anything at all, or what a
contract of the policy allows, or one answer for each request, which makes a member's run a
function of its own seed and environment.
-/

namespace Retrograd.Agent

open List Option
open Infer (Token)
open Logic
open Training (SamplingParams)
open Relation (ReflTransGen)

/-! ### What one update leaves alone -/

section Frames

variable {limits : RolloutLimits} {fallbackParser : Parser} {rendering : ToolRendering}
  {state : RolloutState}

/-- Counting a turn moves the member's counters, and may end it. -/
private theorem continueTurn_frame {turn : ℕ} {parsed : ParsedAssistant} :
    ∃ (truncated finished : Bool) (failed invalid : ℕ),
      (continueTurn limits turn state parsed).1 =
        { state with
          truncated
          finished
          failedTurns := failed
          invalidTurns := invalid } := by
  rw [continueTurn]
  dsimp only
  -- the turn may be unparsed, uncalled, failed once too often or the last one
  split_ifs <;> exact ⟨_, _, _, _, rfl⟩

/-- A turn that goes on leaves its member as finished as it was. -/
private theorem continueTurn_going {turn : ℕ} {parsed going : ParsedAssistant}
    (h : (continueTurn limits turn state parsed).2 = some going) :
    (continueTurn limits turn state parsed).1.finished = state.finished := by
  rw [continueTurn] at h ⊢
  dsimp only at h ⊢
  split_ifs at h ⊢ <;> rfl

variable {generation : PolicyGeneration} {maxNewTokens turn : ℕ}

/-- A sampled turn appends its generation; past that it only moves the member's counters. -/
theorem applyGeneration_frame (h : generation.tokens.isEmpty = false) :
    ∃ (truncated finished cut : Bool) (failed invalid : ℕ),
      (applyGeneration limits fallbackParser rendering state generation maxNewTokens turn).1 =
        { appendGeneration state generation (readTurn fallbackParser rendering generation.text) with
          truncated
          finished
          cutWhileReasoning := cut
          failedTurns := failed
          invalidTurns := invalid } := by
  unfold applyGeneration
  rw [if_neg (by simp [h])]
  dsimp only
  split
  · exact ⟨_, _, _, _, _, rfl⟩
  · split
    · exact ⟨_, _, _, _, _, rfl⟩
    · obtain ⟨truncated, finished, failed, invalid, hframe⟩ := continueTurn_frame
      exact ⟨truncated, finished, _, failed, invalid, hframe⟩

/-- A sampled turn that goes on leaves its member as finished as it was. -/
theorem applyGeneration_going {going : ParsedAssistant}
    (h : (applyGeneration limits fallbackParser rendering state generation maxNewTokens turn).2 = some going) :
    (applyGeneration limits fallbackParser rendering state generation maxNewTokens
      turn).1.finished = state.finished := by
  unfold applyGeneration at h ⊢
  split at h
  · cases h
  · next hsome =>
    rw [if_neg hsome]
    dsimp only at h ⊢
    split at h
    · cases h
    · next hroom =>
      rw [if_neg hroom]
      split at h
      · cases h
      · exact continueTurn_going h

/-- Without a token nothing is appended: the member fails. -/
theorem applyGeneration_empty (h : generation.tokens.isEmpty = true) :
    applyGeneration limits fallbackParser rendering state generation maxNewTokens turn =
      (state.fail (.policyGeneration "policy generated no tokens"), none) := by
  unfold applyGeneration
  rw [if_pos h]

/-- What came back for a turn only writes messages, or fails the member. -/
theorem observe_frame (turn : EnvironmentTurn) :
    ∃ (finished : Bool) (failure : Option Error), (observe rendering state turn).1 =
      { state with
        messages := state.messages ++ turn.observations.map fun observation =>
          observationMessage observation rendering
        finished
        failure } := by
  unfold observe
  dsimp only
  split
  · exact ⟨_, _, rfl⟩
  · exact ⟨_, _, rfl⟩

/-- Folding a render back either ends the member where it stands, or appends the observation. -/
theorem applyObservation_frame (render : Except Error RenderedFraming)
    (observation : Observation) :
    (∃ (truncated : Bool) (failure : Option Error),
      applyObservation limits rendering state render observation =
        { state with truncated, finished := true, failure }) ∨
    ∃ (rendered : RenderedFraming) (pieces : TurnPieces) (normalized : Option TextGap)
      (finished : Bool), render = .ok rendered ∧
      checkTurn rendering state rendered.framing = .ok (pieces, normalized) ∧
      state.tokens.length + (appendedTokens state.tokens rendered.tail).length ≤
        limits.maxTrajectoryTokens ∧
      applyObservation limits rendering state render observation =
        { appendObservation state rendered.framing.tail pieces normalized
            (appendedTokens state.tokens rendered.tail) observation with finished } := by
  unfold applyObservation
  split
  · exact .inl ⟨_, _, rfl⟩
  · next rendered =>
    split
    · exact .inl ⟨_, _, rfl⟩
    · next pieces normalized hcheck =>
      dsimp only
      split
      · exact .inl ⟨_, _, rfl⟩
      · next hroom =>
        refine .inr ⟨rendered, pieces, normalized, ?_⟩
        split
        · refine ⟨true, rfl, hcheck, by omega, ?_⟩
          simp [RolloutState.stop]
        · exact ⟨_, rfl, hcheck, by omega, rfl⟩

end Frames

/-! ### One member -/

/-- Where a member stands within turn `turn`. -/
inductive Phase where
  | idle (turn : ℕ)
  | calling (turn : ℕ) (parsed : ParsedAssistant)
  | observing (turn : ℕ) (observation : Observation)

/-- The phase a generation leaves its member in. -/
def Phase.ofCall (turn : ℕ) : Option ParsedAssistant → Phase
  | some parsed => .calling turn parsed
  | none => .idle (turn + 1)

/-- The phase an environment's turn leaves its member in. -/
def Phase.ofObservation (turn : ℕ) : Option Observation → Phase
  | some observation => .observing turn observation
  | none => .idle (turn + 1)

/-- The phases in which a turn waits for what comes back. -/
def Phase.waits : Phase → Prop
  | .idle _ => False
  | .calling .. => True
  | .observing .. => True

/-- A member: where it stands, its state, and its environment when it has one. -/
structure Seat (ε : Type) where
  phase : Phase
  state : RolloutState
  environment : Option ε

/-- What may come of the calls on the world. -/
structure Answers where
  /-- A generation, for a context and its sampling. -/
  generation : List Token × SamplingParams → PolicyGeneration → Prop
  /-- A render, for a conversation and a catalog. -/
  render : List Message → List ToolSpec → Except Error RenderedFraming → Prop
  /-- The scores of a masked row. -/
  score : List Token × List Bool → List Float32 → Prop
  /-- The deadline may land. -/
  late : Prop
  /-- A batch may fail. -/
  lost : Error → Prop
  /-- The whole rollout may break off. -/
  broken : Error → Prop

variable {σ ε : Type}

/-- What may happen to a member. -/
inductive MemberStep (out : Outside σ ε) (engine : Engine) (rendering : ToolRendering)
    (may : Answers) : Seat ε → Seat ε → Prop
  /-- The deadline ends it. -/
  | cut (phase : Phase) (next : ℕ) (state : RolloutState) (environment : Option ε)
    (h : may.late) :
    MemberStep out engine rendering may ⟨phase, state, environment⟩
      ⟨.idle next, state.stop true, environment⟩
  /-- No token is left to sample a turn in. -/
  | exhaust (turn : ℕ) (state : RolloutState) (environment : Option ε)
    (more : turn < engine.limits.maxTurns) (live : state.finished = false)
    (full : engine.limits.maxTrajectoryTokens ≤ state.tokens.length) :
    MemberStep out engine rendering may ⟨.idle turn, state, environment⟩
      ⟨.idle turn, state.stop true, environment⟩
  /-- A batch it rode on failed. -/
  | lose (phase : Phase) (next : ℕ) (state : RolloutState) (environment : Option ε)
    (error : Error) (h : may.lost error) :
    MemberStep out engine rendering may ⟨phase, state, environment⟩
      ⟨.idle next, state.fail error.duplicate, environment⟩
  /-- It was over already. -/
  | settle (phase : Phase) (next : ℕ) (state : RolloutState) (environment : Option ε)
    (h : state.finished = true) :
    MemberStep out engine rendering may ⟨phase, state, environment⟩
      ⟨.idle next, state, environment⟩
  /-- It samples a turn. -/
  | generate (turn : ℕ) (state : RolloutState) (environment : Option ε)
    (generation : PolicyGeneration) (more : turn < engine.limits.maxTurns)
    (live : state.finished = false)
    (room : state.tokens.length < engine.limits.maxTrajectoryTokens)
    (answer : may.generation (turnRequest engine.limits turn state) generation) :
    MemberStep out engine rendering may ⟨.idle turn, state, environment⟩
      ⟨.ofCall turn (applyTurn engine rendering turn state generation).2,
        (applyTurn engine rendering turn state generation).1, environment⟩
  /-- Its environment answers the turn's calls. -/
  | answer (turn : ℕ) (parsed : ParsedAssistant) (state : RolloutState) (environment : ε) :
    MemberStep out engine rendering may ⟨.calling turn parsed, state, some environment⟩
      ⟨.ofObservation turn
          (observe rendering state (stepEnvironment out.step environment parsed).1).2,
        (observe rendering state (stepEnvironment out.step environment parsed).1).1,
        some (stepEnvironment out.step environment parsed).2⟩
  /-- The re-rendered conversation is folded back. -/
  | fold (turn : ℕ) (observation : Observation) (state : RolloutState)
    (environment : Option ε) (render : Except Error RenderedFraming)
    (rendered : may.render state.messages rendering.templateSpecs render) :
    MemberStep out engine rendering may ⟨.observing turn observation, state, environment⟩
      ⟨.idle (turn + 1), applyObservation engine.limits rendering state render observation,
        environment⟩

/-- Any number of steps. -/
def MemberReach (out : Outside σ ε) (engine : Engine) (rendering : ToolRendering)
    (may : Answers) : Seat ε → Seat ε → Prop :=
  ReflTransGen (MemberStep out engine rendering may)

/-! ### A group of members -/

/-- The members of a group have moved, each along its own steps. -/
structure Moved (out : Outside σ ε) (engine : Engine) (rendering : ToolRendering)
    (may : Answers) (phase : ℕ → Phase) (states : List RolloutState) (environments : List ε)
    (phase' : ℕ → Phase) (states' : List RolloutState) (environments' : List ε) : Prop where
  length : states'.length = states.length
  equipment : environments'.length = environments.length
  reach : ∀ (j : ℕ) (s s' : RolloutState), states[j]? = some s → states'[j]? = some s' →
    MemberReach out engine rendering may ⟨phase j, s, environments[j]?⟩
      ⟨phase' j, s', environments'[j]?⟩

section Group

variable {out : Outside σ ε} {engine : Engine} {rendering : ToolRendering} {may : Answers}
  {phase phase' phase'' : ℕ → Phase} {states states' states'' : List RolloutState}
  {environments environments' environments'' : List ε}

theorem Moved.refl :
    Moved out engine rendering may phase states environments phase states environments where
  length := rfl
  equipment := rfl
  reach := fun j s s' h h' => by
    obtain rfl : s = s' := some.inj (h.symm.trans h')
    exact .refl

theorem Moved.trans
    (h : Moved out engine rendering may phase states environments phase' states' environments')
    (h' : Moved out engine rendering may phase' states' environments' phase'' states''
      environments'') :
    Moved out engine rendering may phase states environments phase'' states'' environments'' where
  length := h'.length.trans h.length
  equipment := h'.equipment.trans h.equipment
  reach := fun j s s'' hs hs'' => by
    have hpos : j < states'.length := by
      rw [h.length]
      exact (List.getElem?_eq_some_iff.mp hs).1
    have hmid := getElem?_eq_getElem hpos
    exact (h.reach j s _ hs hmid).trans (h'.reach j _ s'' hmid hs'')

/-- Lists with the same positions have the same length. -/
private theorem length_of_none {α β : Type} {l : List α} {l' : List β}
    (h : ∀ j : ℕ, l'[j]? = none ↔ l[j]? = none) : l'.length = l.length := by
  have hle := (h l'.length).mp (getElem?_eq_none le_rfl)
  have hge := (h l.length).mpr (getElem?_eq_none le_rfl)
  rw [List.getElem?_eq_none_iff] at hle hge
  omega

/-- Updates entered for some members move the group when each of them moves its own member. -/
private theorem moved_of_entries {β : Type} {update : RolloutState → β → RolloutState}
    {entries : List (ℕ × β)} (hnodup : (entries.map Prod.fst).Nodup)
    (henvs : environments'.length = environments.length)
    (hget : ∀ j, states'[j]? = states[j]?.map fun state =>
      match entryOf entries j with
      | some b => update state b
      | none => state)
    (hnamed : ∀ (j : ℕ) (s : RolloutState) (b : β), states[j]? = some s → (j, b) ∈ entries →
      MemberReach out engine rendering may ⟨phase j, s, environments[j]?⟩
        ⟨phase' j, update s b, environments'[j]?⟩)
    (hother : ∀ (j : ℕ) (s : RolloutState), states[j]? = some s → j ∉ entries.map Prod.fst →
      MemberReach out engine rendering may ⟨phase j, s, environments[j]?⟩
        ⟨phase' j, s, environments'[j]?⟩) :
    Moved out engine rendering may phase states environments phase' states' environments' where
  length := length_of_none fun j => by rw [hget, map_eq_none_iff]
  equipment := henvs
  reach := fun j s s' hs hs' => by
    rw [hget, hs, map_some, some.injEq] at hs'
    cases hentry : entryOf entries j with
    | some b =>
      rw [hentry] at hs'
      exact hs' ▸ hnamed j s b hs ((entryOf_eq_some hnodup).mp hentry)
    | none =>
      rw [hentry] at hs'
      obtain rfl : s = s' := hs'
      refine hother j s hs fun hmem => ?_
      obtain ⟨⟨i, b⟩, hb, rfl⟩ := List.mem_map.mp hmem
      rw [(entryOf_eq_some hnodup).mpr hb] at hentry
      cases hentry

/-- A walk that moves the members it names, and leaves the others where they stood. -/
theorem moved_modifyAll {β : Type} {update : RolloutState → β → RolloutState}
    {entries : List (ℕ × β)} (hnodup : (entries.map Prod.fst).Nodup)
    (hnamed : ∀ (j : ℕ) (s : RolloutState) (b : β), states[j]? = some s → (j, b) ∈ entries →
      MemberReach out engine rendering may ⟨phase j, s, environments[j]?⟩
        ⟨phase' j, update s b, environments[j]?⟩)
    (hother : ∀ (j : ℕ) (s : RolloutState), states[j]? = some s → j ∉ entries.map Prod.fst →
      MemberReach out engine rendering may ⟨phase j, s, environments[j]?⟩
        ⟨phase' j, s, environments[j]?⟩) :
    Moved out engine rendering may phase states environments phase'
      (modifyAll update states entries) environments :=
  moved_of_entries hnodup rfl (fun _ => modifyAll_getElem? hnodup) hnamed hother

/-- The same for a walk whose members may go on. -/
theorem moved_updateAll {β γ : Type} {update : RolloutState → β → RolloutState × Option γ}
    {entries : List (ℕ × β)} (hnodup : (entries.map Prod.fst).Nodup)
    (henvs : environments'.length = environments.length)
    (hnamed : ∀ (j : ℕ) (s : RolloutState) (b : β), states[j]? = some s → (j, b) ∈ entries →
      MemberReach out engine rendering may ⟨phase j, s, environments[j]?⟩
        ⟨phase' j, (update s b).1, environments'[j]?⟩)
    (hother : ∀ (j : ℕ) (s : RolloutState), states[j]? = some s → j ∉ entries.map Prod.fst →
      MemberReach out engine rendering may ⟨phase j, s, environments[j]?⟩
        ⟨phase' j, s, environments'[j]?⟩) :
    Moved out engine rendering may phase states environments phase'
      (updateAll update states entries).1 environments' :=
  moved_of_entries hnodup henvs (fun _ => updateAll_getElem? hnodup) hnamed hother

/-! ### The stages of a turn -/

variable {indices : List ℕ}

/-- The members of a batch, as the entries of a walk that says nothing about them. -/
private theorem map_unit_fst : (indices.map fun index => (index, ())).map Prod.fst = indices := by
  simp [Function.comp_def]

/-- The deadline stops some members, and the others are where they go. -/
theorem truncate_moved {next : ℕ} (hlate : may.late) (hnodup : indices.Nodup)
    (hidle : ∀ j s, states[j]? = some s → j ∉ indices → phase j = .idle next ∨ s.finished = true) :
    Moved out engine rendering may phase states environments (fun _ => .idle next)
      (truncate states indices) environments := by
  refine moved_modifyAll (map_unit_fst.symm ▸ hnodup) (fun j s _ _ _ => ?_) fun j s hs hj => ?_
  · cases hfinished : s.finished with
    | true => exact .single (.settle _ _ s _ hfinished)
    | false => exact .single (.cut _ _ s _ hlate)
  · rw [map_unit_fst] at hj
    rcases hidle j s hs hj with hphase | hfinished
    · rw [hphase]
      exact .refl
    · exact .single (.settle _ _ s _ hfinished)

/-- A batch that failed fails its members; the others were over already. -/
theorem failAll_moved {turn next : ℕ} {error : Error} (hlost : may.lost error)
    (hnodup : indices.Nodup)
    (hover : ∀ j s, states[j]? = some s → j ∉ indices → s.finished = true) :
    Moved out engine rendering may (fun _ => .idle turn) states environments
      (fun _ => .idle next) (failAll states indices error) environments :=
  moved_modifyAll (map_unit_fst.symm ▸ hnodup)
    (fun _ s _ _ _ => .single (.lose _ _ s _ error hlost))
    fun j s hs hj => .single (.settle _ _ s _ (hover j s hs (by rwa [map_unit_fst] at hj)))

/-- The members a turn opens with are the unfinished ones, each with room to sample in. -/
theorem openTurn_live {limits : RolloutLimits} {j : ℕ} (h : j ∈ (openTurn limits states).2) :
    ∃ s, (openTurn limits states).1[j]? = some s ∧ states[j]? = some s ∧ s.finished = false ∧
      s.tokens.length < limits.maxTrajectoryTokens := by
  simp only [openTurn, mem_filter, mem_range, length_map] at h
  obtain ⟨hpos, hlive⟩ := h
  rw [getElem?_map, getElem?_eq_getElem hpos, map_some, any_some] at hlive
  refine ⟨states[j], ?_, getElem?_eq_getElem hpos, ?_⟩
  · rw [openTurn, getElem?_map, getElem?_eq_getElem hpos, map_some]
    split at hlive
    · simp [RolloutState.stop] at hlive
    · next hroom => rw [if_neg hroom]
  · split at hlive
    · simp [RolloutState.stop] at hlive
    · next hroom =>
      have hunfinished : states[j].finished = false := by simpa using hlive
      simp only [hunfinished, Bool.not_false, Bool.true_and, decide_eq_true_eq] at hroom
      exact ⟨hunfinished, by omega⟩

/-- A member the turn does not open with is over. -/
theorem openTurn_over {limits : RolloutLimits} {j : ℕ} {s : RolloutState}
    (hs : (openTurn limits states).1[j]? = some s) (hj : j ∉ (openTurn limits states).2) :
    s.finished = true := by
  by_contra hunfinished
  refine hj ?_
  have hpos := (List.getElem?_eq_some_iff.mp hs).1
  simp only [openTurn, mem_filter, mem_range] at hs hpos ⊢
  exact ⟨hpos, by rw [hs]; simpa using hunfinished⟩

variable {turn : ℕ}

theorem openTurn_moved (hmore : turn < engine.limits.maxTurns) :
    Moved out engine rendering may (fun _ => .idle turn) states environments
      (fun _ => .idle turn) (openTurn engine.limits states).1 environments where
  length := by simp [openTurn]
  equipment := rfl
  reach := fun j s s' hs hs' => by
    rw [openTurn, getElem?_map, hs, map_some, some.injEq] at hs'
    split at hs'
    · next hfull =>
      simp only [Bool.and_eq_true, Bool.not_eq_true', decide_eq_true_eq] at hfull
      exact hs' ▸ .single (.exhaust _ s _ hmore hfull.1 (by omega))
    · exact hs' ▸ .refl

/-- The phases of members of which some go on. -/
def phasesOf {β : Type} (kind : Option β → Phase) (going : List (ℕ × β)) (j : ℕ) : Phase :=
  kind (entryOf going j)

theorem generated_moved {live : List ℕ} {generated : List PolicyGeneration}
    (hmore : turn < engine.limits.maxTurns) (hlen : generated.length = live.length)
    (hnodup : live.Nodup)
    (hlive : ∀ j ∈ live, ∃ s, states[j]? = some s ∧ s.finished = false ∧ s.tokens.length < engine.limits.maxTrajectoryTokens)
    (hover : ∀ j s, states[j]? = some s → j ∉ live → s.finished = true)
    (hgen : ∀ (j : ℕ) (s : RolloutState) (generation : PolicyGeneration), states[j]? = some s → (j, generation) ∈ live.zip generated → may.generation (turnRequest engine.limits turn s) generation) :
    Moved out engine rendering may (fun _ => .idle turn) states environments
      (phasesOf (.ofCall turn)
        (updateAll (applyTurn engine rendering turn) states (live.zip generated)).2)
      (updateAll (applyTurn engine rendering turn) states (live.zip generated)).1
      environments := by
  have hfst : (live.zip generated).map Prod.fst = live := map_fst_zip (by omega)
  have hentries : ((live.zip generated).map Prod.fst).Nodup := hfst.symm ▸ hnodup
  refine moved_updateAll hentries rfl (fun j s generation hs hmem => ?_) fun j s hs hj => ?_
  · obtain ⟨s', hs', hunfinished, hroom⟩ := hlive j (of_mem_zip hmem).1
    obtain rfl : s = s' := some.inj (hs.symm.trans hs')
    rw [phasesOf, entryOf_going hentries (going_nodup hentries),
      (entryOf_eq_some hentries).mpr hmem, bind_some, hs, bind_some]
    exact .single (.generate turn s _ generation hmore hunfinished hroom
      (hgen j s generation hs hmem))
  · rw [phasesOf, entryOf_going hentries (going_nodup hentries), entryOf_eq_none hj]
    exact .single (.settle _ _ s _ (hover j s hs (hfst ▸ hj)))

/-- Every member that waits has its own environment stepped, and observes what came of it. -/
theorem observed_moved {pending : List (ℕ × ParsedAssistant)} {turns : List EnvironmentTurn}
    (hnodup : (pending.map Prod.fst).Nodup)
    (hturns : Forall₂ (fun entry turn => ∃ environment : ε, environments[entry.1]? = some environment ∧ turn = (stepEnvironment out.step environment entry.2).1) pending turns)
    (henvs : ∀ j, environments'[j]? = environments[j]?.map fun environment => match entryOf pending j with | some parsed => (stepEnvironment out.step environment parsed).2 | none => environment) :
    Moved out engine rendering may (phasesOf (.ofCall turn) pending) states environments
      (phasesOf (.ofObservation turn)
        (updateAll (observe rendering) states ((pending.map Prod.fst).zip turns)).2)
      (updateAll (observe rendering) states ((pending.map Prod.fst).zip turns)).1
      environments' := by
  have hlen : turns.length = (pending.map Prod.fst).length := by
    rw [length_map, hturns.length_eq]
  have hfst : ((pending.map Prod.fst).zip turns).map Prod.fst = pending.map Prod.fst :=
    map_fst_zip (by omega)
  have hentries : (((pending.map Prod.fst).zip turns).map Prod.fst).Nodup := hfst.symm ▸ hnodup
  refine moved_updateAll hentries
    (length_of_none fun j => by rw [henvs, map_eq_none_iff])
    (fun j s outcome hs hmem => ?_) fun j s hs hj => ?_
  · obtain ⟨k, hk⟩ := mem_iff_getElem?.mp hmem
    obtain ⟨hmember, houtcome⟩ := getElem?_zip_eq_some.mp hk
    obtain ⟨⟨i, parsed⟩, hentry, environment, henv, hstep⟩ := forall₂_getElem? hturns houtcome
    rw [getElem?_map, hentry, map_some, some.injEq] at hmember
    obtain rfl : i = j := hmember
    have hparsed : entryOf pending i = some parsed :=
      (entryOf_eq_some hnodup).mpr (mem_of_getElem? hentry)
    rw [phasesOf, phasesOf, entryOf_going hentries (going_nodup hentries),
      (entryOf_eq_some hentries).mpr hmem, bind_some, hs, bind_some, henvs, henv,
      hparsed]
    obtain rfl : outcome = (stepEnvironment out.step environment parsed).1 := hstep
    exact .single (.answer turn parsed s environment)
  · rw [hfst] at hj
    rw [phasesOf, phasesOf, entryOf_going hentries (going_nodup hentries), henvs,
      entryOf_eq_none hj, entryOf_eq_none (hfst.symm ▸ hj), Option.map_id']
    exact .refl

theorem folded_moved {continuing : List (ℕ × Observation)}
    {renders : List (Except Error RenderedFraming)} (hnodup : (continuing.map Prod.fst).Nodup)
    (hrenders : Forall₂ (fun entry render => ∀ s, states[entry.1]? = some s → may.render s.messages rendering.templateSpecs render) continuing renders) :
    Moved out engine rendering may (phasesOf (.ofObservation turn) continuing) states
      environments (fun _ => .idle (turn + 1)) (applyObservations engine rendering states
        ((continuing.zip renders).map fun entry => (entry.1.1, entry.1.2, entry.2)))
      environments := by
  have hlen := hrenders.length_eq
  have hfst : (((continuing.zip renders).map fun entry => (entry.1.1, entry.1.2, entry.2)).map
      Prod.fst) = continuing.map Prod.fst := by
    rw [List.map_map]
    calc (continuing.zip renders).map (fun entry => entry.1.1)
        = ((continuing.zip renders).map Prod.fst).map Prod.fst := by rw [List.map_map]; rfl
      _ = continuing.map Prod.fst := by rw [map_fst_zip (by omega)]
  refine moved_modifyAll (hfst.symm ▸ hnodup) (fun j s entry hs hmem => ?_) fun j s hs hj => ?_
  · obtain ⟨⟨⟨i, observation⟩, render⟩, hzip, heq⟩ := List.mem_map.mp hmem
    cases heq
    rw [phasesOf, (entryOf_eq_some hnodup).mpr (of_mem_zip hzip).1]
    obtain ⟨k, hk⟩ := mem_iff_getElem?.mp hzip
    obtain ⟨hcontinuing, hrender⟩ := getElem?_zip_eq_some.mp hk
    obtain ⟨_, hentry, hallowed⟩ := forall₂_getElem? hrenders hrender
    cases hcontinuing.symm.trans hentry
    exact .single (.fold turn observation s _ render (hallowed s hs))
  · rw [phasesOf, entryOf_eq_none (hfst ▸ hj)]
    exact .refl

end Group

end Retrograd.Agent
