import Retrograd.Agent.TurnCheck
import Retrograd.Agent.Trajectory

/-!
# One member of a group

The state of one trajectory under construction and what a turn does to it: the sampled turn is
appended and read (`applyGeneration`), its calls are made one after the other against the
member's own environment (`stepEnvironment`), and what came back is rendered and appended
(`applyObservation`). Nothing here looks at another member.
-/

namespace Retrograd.Agent

open Infer (Token)
open Logic

/-- What the policy sampled for one request. -/
structure PolicyGeneration where
  tokens : List Token
  text : String
  stoppedAtEog : Bool
  /-- Which tokens the reasoning budget forced; empty when none was. -/
  forced : List Bool

/-- A conversation rendered around its sampled turns, with the tail tokenized. -/
structure RenderedFraming where
  framing : Framing
  tail : List Token

/-- The state of one member of a group. -/
structure RolloutState where
  seed : UInt64
  messages : List Message
  tokens : List Token
  /-- What the template writes around each turn the conversation was rendered past. -/
  checked : List TurnPieces
  /-- The text the turn being sampled follows. -/
  committed : String
  trainMask : List Bool
  steps : List Step
  stepMessages : List (List ℕ)
  oldLogprobs : Option (List Float32)
  truncated : Bool
  finished : Bool
  envRewarded : Bool
  environmentDone : Bool
  failedTurns : ℕ
  assistantProse : List String
  assistantReasoning : List String
  cutWhileReasoning : Bool
  invalidTurns : ℕ
  normalizedTurns : ℕ
  firstNormalization : Option (ℕ × TextGap)
  failure : Option Error

namespace RolloutState

/-- A member that has only its rendered scenario. -/
def new (seed : UInt64) (messages : List Message) (opening : List Token × String) :
    RolloutState where
  seed
  messages
  tokens := opening.1
  checked := []
  committed := opening.2
  trainMask := List.replicate opening.1.length false
  steps := [⟨.context, (0, opening.1.length), none⟩]
  stepMessages := [List.range messages.length]
  oldLogprobs := none
  truncated := false
  finished := false
  envRewarded := false
  environmentDone := false
  failedTurns := 0
  assistantProse := []
  assistantReasoning := []
  cutWhileReasoning := false
  invalidTurns := 0
  normalizedTurns := 0
  firstNormalization := none
  failure := none

def fail (state : RolloutState) (error : Error) : RolloutState :=
  { state with failure := some error, finished := true }

def pushStep (state : RolloutState) (step : Step) (messages : List ℕ) : RolloutState :=
  { state with
    steps := state.steps ++ [step]
    stepMessages := state.stepMessages ++ [messages] }

def stop (state : RolloutState) (truncated : Bool) : RolloutState :=
  { state with truncated := state.truncated || truncated, finished := true }

end RolloutState

/-! ### The sampled turn -/

/-- Which of a generation's tokens are trained: every one the policy chose. -/
def chosenMask (generation : PolicyGeneration) : List Bool :=
  (List.range generation.tokens.length).map fun position => !generation.forced.getD position false

/-- The turn read with the parser the rendering settled on. -/
def readTurn (fallbackParser : Parser) (rendering : ToolRendering) (text : String) :
    ParsedAssistant :=
  match rendering with
  | .native _ parser => parser text
  | .prompt .. => fallbackParser text
  | .none => ⟨text, "", [], []⟩

/-- The observation a turn that called nothing comes back with. -/
def noToolCallObservation : ToolResult where
  callId := "no_tool_call"
  content := "that turn called no tool, so nothing happened and the turn is spent. Answer " ++
    "with a tool call."
  isError := true

/-- The message of a sampled turn: its raw text, with what the parser read out of it. -/
def sampledMessage (text : String) (parsed : ParsedAssistant) : Message where
  role := .assistant
  content := text
  toolCalls := parsed.toolCalls
  toolCallId := none
  isError := false
  reasoning := if parsed.reasoning.isEmpty then none else some parsed.reasoning

/-- The member with a generation appended: its tokens, its step and its message. -/
def appendGeneration (state : RolloutState) (generation : PolicyGeneration)
    (parsed : ParsedAssistant) : RolloutState :=
  let start := state.tokens.length
  let state := { state with
    tokens := state.tokens ++ generation.tokens
    trainMask := state.trainMask ++ chosenMask generation }
  let state := state.pushStep ⟨.policyAction, (start, state.tokens.length), none⟩
    [state.messages.length]
  { state with
    assistantProse := state.assistantProse ++ [parsed.content]
    assistantReasoning := state.assistantReasoning ++ [parsed.reasoning]
    messages := state.messages ++ [sampledMessage generation.text parsed] }

/-- What a turn that called nothing and had nothing to report becomes: the answer, or a turn
that is told so. -/
def expectCall (limits : RolloutLimits) (rendering : ToolRendering) (parsed : ParsedAssistant) :
    Option ParsedAssistant :=
  if parsed.toolCalls.isEmpty && parsed.parseErrors.isEmpty then
    if limits.endOnNoToolCall || rendering.declaredTools = 0 then none
    else some { parsed with parseErrors := parsed.parseErrors ++ [noToolCallObservation] }
  else some parsed

/-- Counts a turn that goes on, and cuts the member that failed too often or has no turn left. -/
def continueTurn (limits : RolloutLimits) (turn : ℕ) (state : RolloutState)
    (parsed : ParsedAssistant) : RolloutState × Option ParsedAssistant :=
  let state := if parsed.parseErrors.isEmpty then state
    else { state with invalidTurns := state.invalidTurns + 1 }
  let state := { state with
    failedTurns := if parsed.toolCalls.isEmpty then state.failedTurns + 1 else 0 }
  if parsed.toolCalls.isEmpty && 0 < limits.maxFailedTurns
      && limits.maxFailedTurns ≤ state.failedTurns then
    (state.stop true, none)
  else if turn + 1 = limits.maxTurns then (state.stop true, none)
  else (state, some parsed)

/-- Applies one generated turn. The turn comes back parsed when the member wants tools and may
continue. -/
def applyGeneration (limits : RolloutLimits) (fallbackParser : Parser)
    (rendering : ToolRendering) (state : RolloutState) (generation : PolicyGeneration)
    (maxNewTokens turn : ℕ) : RolloutState × Option ParsedAssistant :=
  if generation.tokens.isEmpty then
    (state.fail (.policyGeneration "policy generated no tokens"), none)
  else
    let parsed := readTurn fallbackParser rendering generation.text
    let state := appendGeneration state generation parsed
    -- a turn that emitted its stop token is complete even when it used the whole budget
    if (generation.tokens.length = maxNewTokens && !generation.stoppedAtEog)
        || limits.maxTrajectoryTokens ≤ state.tokens.length then
      ({ state with
        cutWhileReasoning := !parsed.reasoning.isEmpty && parsed.content.isEmpty
          && parsed.toolCalls.isEmpty }.stop true, none)
    else
      match expectCall limits rendering parsed with
      | none => (state.stop false, none)
      | some parsed => continueTurn limits turn state parsed

/-! ### The environment -/

/-- What one environment step produced. -/
structure StepOutcome where
  result : ToolResult
  reward : Option Float32
  done : Bool

/-- What one member's environment produced over a turn. -/
structure EnvironmentTurn where
  observations : List ToolResult
  /-- Summed over the turn's calls, nothing when none of them was graded. -/
  reward : Option Float32
  done : Bool
  failure : Option Error

/-- The turn with one more outcome. -/
def EnvironmentTurn.push (turn : EnvironmentTurn) (outcome : StepOutcome) : EnvironmentTurn :=
  { turn with
    reward := match outcome.reward with
      | none => turn.reward
      | some reward => some (turn.reward.getD 0 + reward)
    observations := turn.observations ++ [outcome.result]
    done := outcome.done }

variable {ε : Type}

/-- Makes a turn's calls in order, up to the first that ends the episode or breaks the
environment. -/
def stepCalls (step : ε → ToolCall → Except Error StepOutcome × ε) :
    List ToolCall → EnvironmentTurn → ε → EnvironmentTurn × ε
  | [], turn, environment => (turn, environment)
  | call :: rest, turn, environment =>
    match step environment call with
    | (.error error, environment) => ({ turn with failure := some error }, environment)
    | (.ok outcome, environment) =>
      if outcome.done then (turn.push outcome, environment)
      else stepCalls step rest (turn.push outcome) environment

/-- Runs a member's calls against its own environment. -/
def stepEnvironment (step : ε → ToolCall → Except Error StepOutcome × ε) (environment : ε)
    (parsed : ParsedAssistant) : EnvironmentTurn × ε :=
  stepCalls step parsed.toolCalls ⟨parsed.parseErrors, none, false, none⟩ environment

/-! ### The observation -/

/-- The environment's verdict on one turn, and the messages its observations were written to. -/
structure Observation where
  reward : Option Float32
  done : Bool
  observed : List ℕ

/-- What the turn check compares of a parsed turn. -/
def reading (parsed : ParsedAssistant) : TurnReading where
  reasoning := trim parsed.reasoning
  content := trim parsed.content
  calls := !parsed.toolCalls.isEmpty || !parsed.parseErrors.isEmpty

/-- Writes a turn's observations into the conversation. The member goes on unless its
environment broke. -/
def observe (rendering : ToolRendering) (state : RolloutState) (turn : EnvironmentTurn) :
    RolloutState × Option Observation :=
  let first := state.messages.length
  let state := { state with
    messages := state.messages ++ turn.observations.map fun observation =>
      observationMessage observation rendering }
  match turn.failure with
  | some error => (state.fail error, none)
  | none => (state, some ⟨turn.reward, turn.done,
      List.range' first (state.messages.length - first)⟩)

/-- The checks on a re-rendered conversation: a turn more than was checked before, with every
checked turn where it was. Returns the pieces of the turn just answered. -/
def newPieces (state : RolloutState) (framing : Framing) : Except Error TurnPieces :=
  let turn := state.checked.length
  match framing.turns[turn]? with
  | none => .error (.invalid (unusable framing.turns.length turn))
  | some pieces =>
    if framing.turns.length ≠ turn + 1 then
      .error (.invalid (unusable framing.turns.length turn))
    else
      match movedPiece state.checked framing.turns with
      | some (moved, part, gap) => .error (.rewrote part moved gap)
      | none => .ok pieces
where
  unusable (rendered turns : ℕ) : String :=
    s!"chat template rendered {rendered} assistant turns for a conversation that had {turns} " ++
      "plus one tool turn: the template is not usable for multi-turn rollouts"

/-- The turn just answered, as it was sampled. -/
def sampledTurn (state : RolloutState) : Option SampledTurn := do
  let turn := state.checked.length
  let message ← (state.messages.filter fun message => message.role = .assistant)[turn]?
  let reasoning ← state.assistantReasoning[turn]?
  let content ← state.assistantProse[turn]?
  pure ⟨message.content, reasoning, content⟩

/-- Checks the turn just answered: fine as sampled, fine with a gap, or rewritten. -/
def checkTurn (rendering : ToolRendering) (state : RolloutState) (framing : Framing) :
    Except Error (TurnPieces × Option TextGap) := do
  let pieces ← newPieces state framing
  match sampledTurn state with
  | none => .error (.core "one assistant message per sampled turn")
  | some sampled =>
    let read := match rendering with
      | .native _ parser => some fun text => reading (parser text)
      | .prompt .. | .none => none
    match verifyTurn state.committed sampled pieces read with
    | .exact => .ok (pieces, none)
    | .normalized gap => .ok (pieces, some gap)
    | .rewritten part gap => .error (.rewrote part state.checked.length gap)

/-- The new framing piece, without the token the policy already closed its turn with. -/
def appendedTokens (tokens tail : List Token) : List Token :=
  match tail with
  | [] => []
  | terminator :: rest => if tokens.getLast? = some terminator then rest else tail

/-- The member with an observation appended: its framing tokens, its step and its reward. -/
def appendObservation (state : RolloutState) (tailText : String) (pieces : TurnPieces)
    (normalized : Option TextGap) (appended : List Token) (observation : Observation) :
    RolloutState :=
  let start := state.tokens.length
  let turn := state.checked.length
  let state := { state with
    tokens := state.tokens ++ appended
    trainMask := state.trainMask ++ List.replicate appended.length false
    normalizedTurns := if normalized.isSome then state.normalizedTurns + 1
      else state.normalizedTurns
    firstNormalization := state.firstNormalization.orElse fun _ => normalized.map fun gap =>
      (turn, gap)
    checked := state.checked ++ [pieces]
    committed := tailText
    envRewarded := state.envRewarded || observation.reward.isSome
    environmentDone := state.environmentDone || observation.done }
  state.pushStep ⟨.toolResult, (start, state.tokens.length), observation.reward⟩
    observation.observed

/-- Folds the re-rendered conversation back into the member's token stream. Only the new
framing piece is appended; the environment's verdict lands on it, and `done` ends the
trajectory without truncating it. -/
def applyObservation (limits : RolloutLimits) (rendering : ToolRendering) (state : RolloutState)
    (render : Except Error RenderedFraming) (observation : Observation) : RolloutState :=
  match render with
  | .error error => state.fail error
  | .ok rendered =>
    match checkTurn rendering state rendered.framing with
    | .error error => state.fail error
    | .ok (pieces, normalized) =>
      let appended := appendedTokens state.tokens rendered.tail
      if limits.maxTrajectoryTokens < state.tokens.length + appended.length then state.stop true
      else
        let state := appendObservation state rendered.framing.tail pieces normalized appended
          observation
        if observation.done then state.stop false else state

/-! ### The end -/

/-- The finished member as a trajectory. -/
def finishTrajectory (scenario : Scenario) (rendering : ToolRendering) (member : ℕ)
    (state : RolloutState) : Except Error Trajectory :=
  match state.failure with
  | some error => .error error
  | none =>
    match state.oldLogprobs with
    | none => .error (.invalid "trajectory was never scored")
    | some oldLogprobs =>
      let missingVerifierReward :=
        if state.environmentDone then none else scenario.rewardOnFailure
      let trajectory : Trajectory :=
        { scenarioId := scenario.id
          messages := state.messages
          tokens := state.tokens
          oldLogprobs
          trainMask := state.trainMask
          steps := state.steps
          reward := missingVerifierReward.orElse fun _ =>
            if state.envRewarded then some 0 else none
          truncated := state.truncated
          provenance := some
            { member
              seed := state.seed
              stepMessages := state.stepMessages
              tools := rendering.specs
              rendering := rendering.kind
              assistantProse := state.assistantProse
              assistantReasoning := state.assistantReasoning
              cutWhileReasoning := state.cutWhileReasoning
              invalidTurns := state.invalidTurns
              checkedTurns := state.checked.length
              normalizedTurns := state.normalizedTurns
              firstNormalization := state.firstNormalization } }
      match trajectory.validate with
      | .error error => .error error
      | .ok () => .ok trajectory

end Retrograd.Agent
