import Retrograd.Agent.Contract

/-!
# The weave of a trajectory

What a trajectory's token stream is made of: the rendered scenario, the sampled turns and the
observations, one **segment** after the other, each appended once and never touched again. The
tokens, the mask and the steps are three readings of the same list of segments (`Woven`), so the
steps tile the tokens, the mask is what the policy chose, and every sampled turn stands right
after the context it was sampled under. Every step of a member keeps the weave.
-/

namespace Retrograd.Agent

open List
open Infer (Token)
open Logic
open Training (SamplingParams)

/-! ### Segments -/

/-- One piece of a token stream. -/
inductive Segment where
  | context (tokens : List Token)
  | action (request : List Token × SamplingParams) (generation : PolicyGeneration)
  | observation (tokens : List Token) (turn : EnvironmentTurn)

namespace Segment

def tokens : Segment → List Token
  | context tokens => tokens
  | action _ generation => generation.tokens
  | observation tokens _ => tokens

/-- The tokens of a segment that are trained: the ones the policy chose. -/
def mask : Segment → List Bool
  | context tokens => List.replicate tokens.length false
  | action _ generation => chosenMask generation
  | observation tokens _ => List.replicate tokens.length false

/-- The step of a segment that starts at `start`. -/
def step (start : ℕ) : Segment → Step
  | context tokens => ⟨.context, (start, start + tokens.length), none⟩
  | action _ generation => ⟨.policyAction, (start, start + generation.tokens.length), none⟩
  | observation tokens turn => ⟨.toolResult, (start, start + tokens.length), turn.reward⟩

/-- The environment's turn a segment was written for. -/
def turn? : Segment → Option EnvironmentTurn
  | observation _ turn => some turn
  | _ => none

end Segment

/-- The steps of segments that start at `start`, one after the other. -/
def stepsOf : ℕ → List Segment → List Step
  | _, [] => []
  | start, segment :: rest => segment.step start :: stepsOf (start + segment.tokens.length) rest

theorem stepsOf_append (start : ℕ) (segments : List Segment) (segment : Segment) :
    stepsOf start (segments ++ [segment]) =
      stepsOf start segments ++
        [segment.step (start + (segments.flatMap Segment.tokens).length)] := by
  induction segments generalizing start with
  | nil => simp [stepsOf]
  | cons first rest ih =>
    rw [cons_append, stepsOf, ih, stepsOf, flatMap_cons, length_append,
      Nat.add_assoc]
    rfl

/-- Every sampled turn of a stream was asked for on the tokens before it. -/
def InContext (may : Answers) (segments : List Segment) : Prop :=
  ∀ (before after : List Segment) (request : List Token × SamplingParams)
    (generation : PolicyGeneration), segments = before ++ .action request generation :: after →
    request.1 = before.flatMap Segment.tokens ∧ may.generation request generation

/-- The turns an environment plays one after the other, each answering a parsed turn. -/
inductive Plays {σ ε : Type} (out : Outside σ ε) :
    Option ε → List EnvironmentTurn → Option ε → Prop where
  | start (environment : Option ε) : Plays out environment [] environment
  | play {first : Option ε} {turns : List EnvironmentTurn} {environment : ε}
    (before : Plays out first turns (some environment)) (parsed : ParsedAssistant) :
    Plays out first (turns ++ [(stepEnvironment out.step environment parsed).1])
      (some (stepEnvironment out.step environment parsed).2)

/-- A member's stream is its segments, read three ways. -/
structure Woven (may : Answers) (segments : List Segment) (state : RolloutState) : Prop where
  tokens : state.tokens = segments.flatMap Segment.tokens
  mask : state.trainMask = segments.flatMap Segment.mask
  steps : state.steps = stepsOf 0 segments
  sampled : InContext may segments

/-! ### What keeps the weave -/

section Steps

variable {may : Answers} {segments : List Segment} {state state' : RolloutState}

/-- The weave is about the stream alone. -/
theorem Woven.congr (h : Woven may segments state) (htokens : state'.tokens = state.tokens)
    (hmask : state'.trainMask = state.trainMask) (hsteps : state'.steps = state.steps) :
    Woven may segments state' :=
  ⟨htokens.trans h.tokens, hmask.trans h.mask, hsteps.trans h.steps, h.sampled⟩

theorem Woven.new (seed : UInt64) (messages : List Message) (prompt : List Token × String) :
    Woven may [.context prompt.1] (RolloutState.new seed messages prompt) where
  tokens := by simp [RolloutState.new, Segment.tokens]
  mask := by simp [RolloutState.new, Segment.mask]
  steps := by simp [RolloutState.new, stepsOf, Segment.step]
  sampled := by
    intro before after request generation h
    -- an action is not the context a stream opens on
    cases before with
    | nil => cases h
    | cons first rest =>
      have hlen := congrArg List.length h
      simp at hlen

/-- A segment that was not sampled, or was sampled on the tokens before it, keeps turns in
context. -/
private theorem InContext.append (h : InContext may segments) (segment : Segment)
    (hsegment : ∀ request generation, segment = .action request generation →
      request.1 = segments.flatMap Segment.tokens ∧ may.generation request generation) :
    InContext may (segments ++ [segment]) := by
  intro before after request generation heq
  rcases eq_nil_or_concat' after with rfl | ⟨rest, last, rfl⟩
  · obtain ⟨rfl, hlast⟩ := append_inj' heq rfl
    exact hsegment request generation (singleton_inj.mp hlast)
  · rw [← cons_append, ← append_assoc] at heq
    obtain ⟨hfront, -⟩ := append_inj' heq rfl
    exact h before rest request generation hfront

/-- A sampled turn is a new segment. -/
theorem Woven.generate (h : Woven may segments state) (request : List Token × SamplingParams)
    (generation : PolicyGeneration) (parsed : ParsedAssistant)
    (hcontext : request.1 = state.tokens) (hgeneration : may.generation request generation) :
    Woven may (segments ++ [.action request generation])
      (appendGeneration state generation parsed) where
  tokens := by
    simp [appendGeneration, RolloutState.pushStep, h.tokens, Segment.tokens]
  mask := by
    simp [appendGeneration, RolloutState.pushStep, h.mask, Segment.mask]
  steps := by
    rw [stepsOf_append, ← h.tokens, ← h.steps]
    simp [appendGeneration, RolloutState.pushStep, Segment.step]
  sampled := h.sampled.append _ fun request' generation' heq => by
    cases heq
    exact ⟨hcontext.trans h.tokens, hgeneration⟩

/-- A folded observation is a new segment. -/
theorem Woven.observe (h : Woven may segments state) (tailText : String) (pieces : TurnPieces)
    (normalized : Option TextGap) (appended : List Token) (observation : Observation)
    (turn : EnvironmentTurn) (hreward : observation.reward = turn.reward) :
    Woven may (segments ++ [.observation appended turn])
      (appendObservation state tailText pieces normalized appended observation) where
  tokens := by
    simp [appendObservation, RolloutState.pushStep, h.tokens, Segment.tokens]
  mask := by
    simp [appendObservation, RolloutState.pushStep, h.mask, Segment.mask]
  steps := by
    rw [stepsOf_append, ← h.tokens, ← h.steps]
    simp [appendObservation, RolloutState.pushStep, Segment.step, hreward]
  sampled := h.sampled.append _ fun request' generation' heq => nomatch heq

end Steps

/-! ### Every member -/

variable {σ ε : Type} {out : Outside σ ε} {engine : Engine} {rendering : ToolRendering}
  {may : Answers} {first : Option ε}

/-- The turns a member's environment has played, of which some were folded in: all of them but
the one that is being observed, up to where the member ended. -/
def Folded (phase : Phase) (segments : List Segment) (turns : List EnvironmentTurn) : Prop :=
  match phase with
  | .observing _ observation => ∃ before turn, turns = before ++ [turn] ∧
      observation.reward = turn.reward ∧ (segments.filterMap Segment.turn?).Sublist before
  | _ => (segments.filterMap Segment.turn?).Sublist turns

/-- A member's stream is woven of its prompt, its own turns and what its environment played. -/
structure Weaves (out : Outside σ ε) (engine : Engine) (may : Answers) (first : Option ε)
    (seat : Seat ε) (segments : List Segment) (turns : List EnvironmentTurn) : Prop where
  woven : Woven may segments seat.state
  plays : Plays out first turns seat.environment
  folded : Folded seat.phase segments turns
  /-- A turn was only ever sampled, and an observation folded in, where there was room. -/
  room : (∀ request generation, may.generation request generation →
    generation.tokens.length ≤ request.2.maxNewTokens) →
    seat.state.tokens.length ≤ engine.limits.maxTrajectoryTokens

private theorem Folded.sublist {phase : Phase} {segments : List Segment}
    {turns : List EnvironmentTurn} (h : Folded phase segments turns) :
    (segments.filterMap Segment.turn?).Sublist turns := by
  unfold Folded at h
  split at h
  · obtain ⟨before, turn, rfl, -, hsub⟩ := h
    exact hsub.trans (sublist_append_left before [turn])
  · exact h

/-- **One step of a member keeps its weave.** -/
theorem MemberStep.weaves {seat seat' : Seat ε} {segments : List Segment}
    {turns : List EnvironmentTurn} (h : MemberStep out engine rendering may seat seat')
    (hweaves : Weaves out engine may first seat segments turns) :
    ∃ segments' turns', Weaves out engine may first seat' segments' turns' := by
  obtain ⟨hwoven, hplays, hfolded, hroom⟩ := hweaves
  cases h with
  | cut phase next state environment h =>
    exact ⟨segments, turns, hwoven.congr rfl rfl rfl, hplays, hfolded.sublist, hroom⟩
  | exhaust turn state environment more live full =>
    exact ⟨segments, turns, hwoven.congr rfl rfl rfl, hplays, hfolded, hroom⟩
  | lose phase next state environment error h =>
    exact ⟨segments, turns, hwoven.congr rfl rfl rfl, hplays, hfolded.sublist, hroom⟩
  | settle phase next state environment h =>
    exact ⟨segments, turns, hwoven, hplays, hfolded.sublist, hroom⟩
  | generate turn state environment generation more live room answer =>
    have hphase : ∀ segments', (segments'.filterMap Segment.turn?).Sublist turns →
        Folded (.ofCall turn (applyTurn engine rendering turn state generation).2) segments'
          turns := by
      intro segments' hsub
      cases (applyTurn engine rendering turn state generation).2 with
      | none => exact hsub
      | some parsed => exact hsub
    cases hempty : generation.tokens.isEmpty with
    | true =>
      refine ⟨segments, turns, ?_, hplays, hphase segments hfolded, ?_⟩
      · simp only [applyTurn, applyGeneration_empty hempty]
        exact hwoven.congr rfl rfl rfl
      · simp only [applyTurn, applyGeneration_empty hempty]
        exact hroom
    | false =>
      obtain ⟨truncated, finished, cut, failed, invalid, hframe⟩ :=
        @applyGeneration_frame engine.limits engine.fallbackParser rendering state generation
          (turnBudget engine.limits state) turn hempty
      have happend := hwoven.generate (turnRequest engine.limits turn state) generation
        (readTurn engine.fallbackParser rendering generation.text) rfl answer
      have hsame : (segments ++ [Segment.action (turnRequest engine.limits turn state)
          generation]).filterMap Segment.turn? = segments.filterMap Segment.turn? := by
        rw [filterMap_append]
        exact append_nil _
      refine ⟨segments ++ [.action (turnRequest engine.limits turn state) generation], turns,
        ?_, hplays, hphase _ (hsame.symm ▸ hfolded), fun hbudget => ?_⟩
      · simp only [applyTurn, hframe]
        exact happend.congr rfl rfl rfl
      · -- the turn was asked for no more tokens than the stream has room for
        have hlen := hbudget _ _ answer
        simp only [applyTurn, hframe, appendGeneration, RolloutState.pushStep, length_append]
        simp only [turnRequest, turnBudget] at hlen
        omega
  | answer turn parsed state environment =>
    obtain ⟨finished, failure, hframe⟩ := @observe_frame rendering state
      (stepEnvironment out.step environment parsed).1
    refine ⟨segments, turns ++ [(stepEnvironment out.step environment parsed).1], ?_,
      hplays.play parsed, ?_, ?_⟩
    · simp only [hframe]
      exact hwoven.congr rfl rfl rfl
    · unfold Agent.observe
      dsimp only
      split
      · exact hfolded.trans (sublist_append_left _ _)
      · exact ⟨turns, _, rfl, rfl, hfolded⟩
    · simp only [hframe]
      exact hroom
  | fold turn observation state environment render rendered =>
    obtain ⟨before, last, rfl, hreward, hsub⟩ := hfolded
    rcases @applyObservation_frame engine.limits rendering state render observation with
      ⟨truncated, failure, hframe⟩ | ⟨rendered', pieces, normalized, finished, -, -, hfits, hframe⟩
    · refine ⟨segments, before ++ [last], ?_, hplays,
        hsub.trans (sublist_append_left _ _), ?_⟩
      · rw [hframe]
        exact hwoven.congr rfl rfl rfl
      · rw [hframe]
        exact hroom
    · refine ⟨segments ++ [.observation (appendedTokens state.tokens rendered'.tail) last],
        before ++ [last], ?_, hplays, ?_, fun _ => ?_⟩
      · rw [hframe]
        exact (hwoven.observe _ _ _ _ observation last hreward).congr rfl rfl rfl
      · change (List.filterMap _ _).Sublist _
        rw [filterMap_append]
        exact hsub.append (Sublist.refl [last])
      · rw [hframe]
        simp only [appendObservation, RolloutState.pushStep, length_append]
        exact hfits

theorem MemberReach.weaves {seat seat' : Seat ε} {segments : List Segment}
    {turns : List EnvironmentTurn} (h : MemberReach out engine rendering may seat seat')
    (hweaves : Weaves out engine may first seat segments turns) :
    ∃ segments' turns', Weaves out engine may first seat' segments' turns' := by
  induction h with
  | refl => exact ⟨segments, turns, hweaves⟩
  | tail _ hstep ih =>
    obtain ⟨segments', turns', hmid⟩ := ih
    exact hstep.weaves hmid

end Retrograd.Agent
