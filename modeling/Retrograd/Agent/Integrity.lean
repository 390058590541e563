import Retrograd.Agent.Solo
import Retrograd.Agent.Woven

/-!
# Trajectory integrity

What a rollout guarantees of every trajectory it returns, and of a member beside the others
(`rollout_integrity`). The policy may sample anything, stop early, force tokens and fail; what is
asked of it is that a call that returns **answers each of its requests within the tokens it was
given**. A member is independent of its siblings as far as the world answers it by itself: a
decode batch that fails, or a deadline, is shared by every member that rides on it.
-/

namespace Retrograd.Agent

open List
open Infer (Token)
open Logic
open Training (SamplingParams)

variable {σ ε : Type} {out : Outside σ ε} {engine : Engine}

/-! ### One trajectory -/

/-- A trajectory is one stream of segments, woven of what its own environment and the policy
returned. -/
structure Intact (out : Outside σ ε) (limits : RolloutLimits) (first : Option ε)
    (trajectory : Trajectory) (segments : List Segment) (turns : List EnvironmentTurn)
    (last : Option ε) : Prop where
  tokens : trajectory.tokens = segments.flatMap Segment.tokens
  mask : trajectory.trainMask = segments.flatMap Segment.mask
  steps : trajectory.steps = stepsOf 0 segments
  /-- Each sampled turn follows the very tokens its request held. -/
  sampled : InContext (.contract out) segments
  /-- One score for each trained token, as the policy scored this very row. -/
  scored : Rescored out (trajectory.tokens, trajectory.trainMask) trajectory.oldLogprobs ∧
    trajectory.oldLogprobs.length = trajectory.trainMask.count true
  room : trajectory.tokens.length ≤ limits.maxTrajectoryTokens
  /-- The turns the environment played, of which the observations were folded in, each once. -/
  played : Plays out first turns last
  folded : (segments.filterMap Segment.turn?).Sublist turns

variable {trajectory : Trajectory}

theorem validate_scored (h : trajectory.validate = .ok ()) :
    trajectory.oldLogprobs.length = trajectory.trainMask.count true := by
  obtain ⟨_, -, h⟩ := ok_of_bind h
  obtain ⟨_, hscores, -⟩ := ok_of_bind h
  unfold Trajectory.validateScores at hscores
  dsimp only at hscores
  split at hscores
  · cases hscores
  · next hcount => omega

/-- A member is finished as it stands. -/
private theorem finishTrajectory_stream {scenario : Scenario} {rendering : ToolRendering}
    {member : ℕ} {state : RolloutState}
    (h : finishTrajectory scenario rendering member state = .ok trajectory) :
    state.failure = none ∧ state.oldLogprobs = some trajectory.oldLogprobs ∧
      trajectory.tokens = state.tokens ∧ trajectory.trainMask = state.trainMask ∧
      trajectory.steps = state.steps ∧ trajectory.validate = .ok () := by
  unfold finishTrajectory at h
  split at h
  · cases h
  · next hfailure =>
    split at h
    · cases h
    · next scores hscores =>
      dsimp only at h
      split at h
      · cases h
      · next hvalid =>
        cases h
        exact ⟨hfailure, hscores, rfl, rfl, rfl, hvalid⟩

/-- The weave a member starts on. -/
private theorem openMember_weaves {may : Answers} {messages : List Message} {seed : UInt64}
    {opening : Except Error (Option String)} {render : Except Error RenderedFraming}
    {first : Option ε} {turn : ℕ} :
    ∃ segments, Weaves out engine may first
      ⟨.idle turn, openMember messages seed opening (promptOf engine render), first⟩
      segments [] := by
  cases hprompt : promptOf engine render with
  | error e =>
    refine ⟨[.context []], ?_, .start first, Sublist.refl _, fun _ => ?_⟩
    · unfold openMember
      exact (Woven.new seed (openingMessages messages opening) ([], "")).congr
        (by dsimp only; split <;> rfl) (by dsimp only; split <;> rfl)
        (by dsimp only; split <;> rfl)
    · unfold openMember
      dsimp only
      split <;> exact Nat.zero_le _
  | ok prompt =>
    obtain ⟨-, hroom⟩ := promptOf_room hprompt
    refine ⟨[.context prompt.1], ?_, .start first, Sublist.refl _, fun _ => ?_⟩
    · unfold openMember
      exact (Woven.new seed (openingMessages messages opening) prompt).congr
        (by dsimp only; split <;> rfl) (by dsimp only; split <;> rfl)
        (by dsimp only; split <;> rfl)
    · unfold openMember
      dsimp only
      split <;> exact hroom.le

/-- **Every trajectory a member's run comes to is intact.** -/
theorem Origin.intact {scenario : Scenario} {seed : UInt64} {environment : Option ε} {member : ℕ}
    (h : Origin out engine (.contract out) scenario seed environment member trajectory) :
    ∃ (first : Option ε) (segments : List Segment) (turns : List EnvironmentTurn)
      (last : Option ε), first = (resetOf out environment seed).2 ∧
      Intact out engine.limits first trajectory segments turns last := by
  obtain ⟨rendering, state', -, ⟨render, state, environment', -, hreach, hscored⟩, hfinish⟩ := h
  obtain ⟨hfailure, hlogprobs, htokens, hmask, hsteps, hvalid⟩ := finishTrajectory_stream hfinish
  obtain ⟨opening, hopened⟩ : ∃ segments, Weaves out engine (.contract out)
      (resetOf out environment seed).2
      ⟨.idle 0, openMember (scenarioMessages scenario rendering) seed
        (resetOf out environment seed).1 (promptOf engine render),
        (resetOf out environment seed).2⟩ segments [] := openMember_weaves
  obtain ⟨segments, turns, hwoven, hplays, hfolded, hroom⟩ := hreach.weaves hopened
  cases hscored with
  | failed h => simp [hfailure] at h
  | lost error h => simp [RolloutState.fail] at hfailure
  | scored scores live h =>
    obtain rfl : scores = trajectory.oldLogprobs := Option.some.inj hlogprobs
    refine ⟨_, segments, turns, environment', rfl, htokens.trans hwoven.tokens,
      hmask.trans hwoven.mask, hsteps.trans hwoven.steps, hwoven.sampled, ⟨?_, ?_⟩, ?_, hplays,
      hfolded⟩
    · rw [htokens, hmask]
      exact h
    · exact validate_scored hvalid
    · rw [htokens]
      exact hroom fun request generation h => h.2

/-! ### The rollout -/

/-- A group whose members answer in one turn. An environment in state `false` opens on
`opening`; the policy samples what `generation` makes of the tokens it is given, and when it is
`strict` it fails every batch with a context that holds the token the text `bad` renders to. -/
def pairOutside (opening : Except Error (Option String)) (generation : ℕ → PolicyGeneration)
    (strict : Bool) : Outside Unit Bool where
  create := fun policy => (.ok true, policy)
  tools := fun _ => .ok []
  reset := fun environment _ => (if environment then .ok none else opening, environment)
  step := fun environment call => (.ok ⟨⟨call.id, "", false⟩, none, false⟩, environment)
  supportsNativeTools := fun policy => (.ok false, policy)
  toolCallParser := fun _ policy => (.ok none, policy)
  renderChatFraming := fun messages _ policy =>
    (.ok ⟨⟨[], "user"⟩, if messages.any fun message => message.content = "bad" then [1, 9]
      else [1, 2]⟩, policy)
  generateShared := fun _ requests policy =>
    (.ok (requests.map fun params => generation params.maxNewTokens), policy)
  generateContinuous := fun requests policy =>
    (if strict && requests.any fun request => 9 ∈ request.1 then
      .error (.policyGeneration "context overflow")
    else .ok (requests.map fun request => generation request.2.maxNewTokens), policy)
  noteToolWait := fun _ policy => (.ok (), policy)
  scoreMaskedBatch := fun requests policy =>
    (.ok (requests.map fun request => (request.2.filter id).map fun _ => 0), policy)
  sequenceCapacity := 4
  late := fun policy => (false, policy)
  encode := fun _ => .ok "catalog"

/-- One turn of at most three tokens, in a stream of at most six. -/
def pairEngine : Engine where
  limits := ⟨1, 3, 6, 0, true, 0⟩
  fallbackParser := fun text => ⟨text, "", [], []⟩
  hasEnvironments := true

/-- The tokens of an answer the policy ended by itself. -/
def pairGeneration (tokens : List Token) : PolicyGeneration := ⟨tokens, "answer", true, []⟩

/-- An answer cut to the tokens it is given. -/
def pairWithin (room : ℕ) : PolicyGeneration := pairGeneration ([3, 4].take room)

def pairScenario : Scenario := ⟨"lookup", none, "find it", none⟩

/-- The trajectory of the first member, when it has one. -/
def firstOf {σ ε : Type} (result : EStateM.Result Error (World σ ε)
    (List (Except Error Trajectory))) : Option Trajectory :=
  match result with
  | .ok (.ok trajectory :: _) _ => some trajectory
  | _ => none

theorem firstOf_eq_some
    {result : EStateM.Result Error (World σ ε) (List (Except Error Trajectory))}
    (h : firstOf result = some trajectory) :
    ∃ results world', result = .ok results world' ∧ results[0]? = some (.ok trajectory) := by
  unfold firstOf at h
  split at h
  · next rest world' =>
    cases h
    exact ⟨_, world', rfl, rfl⟩
  · cases h

theorem firstOf_ok {results : List (Except Error Trajectory)} {world' : World σ ε}
    (h : results[0]? = some (.ok trajectory)) : firstOf (.ok results world') = some trajectory := by
  cases results with
  | nil => cases h
  | cons first rest =>
    cases h
    rfl

theorem pair_contract (opening : Except Error (Option String)) (strict : Bool) :
    PolicyContract (pairOutside opening pairWithin strict) where
  shared := by
    rintro prompt sampling policy _ ⟨⟩
    exact forall₂_map_right_iff.mpr (forall₂_same.mpr fun _ _ => length_take_le _ _)
  continuous := by
    intro requests policy answers h
    dsimp only [pairOutside] at h
    split at h
    · cases h
    · cases h
      exact forall₂_map_right_iff.mpr
        (forall₂_same.mpr fun _ _ => length_take_le _ _)

theorem pair_perRequest (opening : Except Error (Option String)) :
    PerRequest (pairOutside opening pairWithin false)
      (fun request => pairWithin request.2.maxNewTokens)
      (fun messages _ => .ok ⟨⟨[], "user"⟩,
        if messages.any fun message => message.content = "bad" then [1, 9] else [1, 2]⟩)
      fun request => (request.2.filter id).map fun _ => 0 where
  shared := fun _ _ _ => rfl
  continuous := fun _ _ => rfl
  renders := fun _ _ _ => rfl
  scores := fun _ _ => rfl
  notes := fun _ _ => rfl

end Retrograd.Agent
