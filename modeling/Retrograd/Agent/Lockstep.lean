import Retrograd.Agent.Member
import Retrograd.Logic.Wp
import Retrograd.Training.Config

/-!
# The lockstep rollout

One decode batch per turn over the live members of a group. Everything the loop asks of the
world (the policy, the chat template behind it, the environments, the clock) is a field of
`Outside`; **no answer is assumed of any of them**. A stage the deadline cuts short gives no
answer at all: `late` decides it.
-/

namespace Retrograd.Agent

open Infer (Token)
open Logic
open Training (SamplingParams)

/-! ### The world -/

/-- The calls of a rollout on the world: the policy's and the clock's on a state `σ` nothing else
looks into, an environment's on its own state `ε`. -/
structure Outside (σ ε : Type) where
  /-- Create one environment instance. -/
  create : σ → Except Error ε × σ
  tools : ε → Except Error (List ToolSpec)
  reset : ε → UInt64 → Except Error (Option String) × ε
  step : ε → ToolCall → Except Error StepOutcome × ε
  supportsNativeTools : σ → Except Error Bool × σ
  toolCallParser : List ToolSpec → σ → Except Error (Option Parser) × σ
  /-- Render messages, with a catalog for the template, around the sampled turns. -/
  renderChatFraming : List Message → List ToolSpec → σ → Except Error RenderedFraming × σ
  generateShared : List Token → List SamplingParams → σ →
    Except Error (List PolicyGeneration) × σ
  generateContinuous : List (List Token × SamplingParams) → σ →
    Except Error (List PolicyGeneration) × σ
  noteToolWait : Bool → σ → Except Error Unit × σ
  scoreMaskedBatch : List (List Token × List Bool) → σ → Except Error (List (List Float32)) × σ
  /-- How many sequences the backend decodes at once. -/
  sequenceCapacity : ℕ
  /-- Whether the deadline lands before the stage that starts now has ended. -/
  late : σ → Bool × σ
  /-- The JSON encoder. -/
  encode : Json → Except String String

/-- What a rollout runs on: the policy's state, one environment for each member, and the
renderings already decided, by the text of their catalog. -/
structure World (σ ε : Type) where
  policy : σ
  environments : List ε
  renderings : List (String × ToolRendering)

abbrev RolloutM (σ ε : Type) := EStateM Error (World σ ε)

/-- The engine: its limits, the parser of the prompt-described convention, and whether a
trajectory has an environment at all. -/
structure Engine where
  limits : RolloutLimits
  fallbackParser : Parser
  hasEnvironments : Bool

variable {σ ε : Type} (out : Outside σ ε) (engine : Engine)

/-- Makes one call on the policy or the clock. -/
def ask {α : Type} (call : σ → Except Error α × σ) : RolloutM σ ε α := fun world =>
  match call world.policy with
  | (.ok a, policy) => .ok a { world with policy }
  | (.error e, policy) => .error e { world with policy }

/-- Whether the deadline lands before the stage that starts now has ended. Without a budget
there is no deadline. -/
def isLate : RolloutM σ ε Bool :=
  if 0 < engine.limits.maxRolloutSecs then
    ask fun policy => (.ok (out.late policy).1, (out.late policy).2)
  else pure false

/-- Runs a stage unless the deadline lands first. -/
def beforeDeadline {α : Type} (stage : RolloutM σ ε α) : RolloutM σ ε (Option α) := do
  let late ← isLate out engine
  if late then pure none else some <$> stage

/-- The same stage with its failure as a value. -/
def settled {α : Type} (stage : RolloutM σ ε α) : RolloutM σ ε (Except Error α) := settle stage

def deadlineExpired (stage : String) : String := s!"rollout deadline expired while {stage}"

/-! ### Rendering -/

/-- A catalog entry as the rendering cache's key spells it. -/
def specJson (spec : ToolSpec) : Json :=
  .object [("name", .string spec.name), ("description", .string spec.description),
    ("input_schema", spec.inputSchema)]

/-- The parser a template yields for a catalog; a template blind to tools is not asked. -/
def toolCallParser (native : Bool) (specs : List ToolSpec) : RolloutM σ ε (Option Parser) :=
  if native then ask (out.toolCallParser specs) else pure none

/-- The rendering a catalog gets, from what the template answered. -/
def resolveToolRenderingWith (native : Bool) (parser : Option Parser) (specs : List ToolSpec) :
    Except Error ToolRendering :=
  match decideRendering specs.length native parser.isSome, parser with
  | .native, some parser => .ok (.native specs parser)
  | _, _ => do
    let instructions ← promptToolInstructions out.encode (specs.map TemplateTool.ofSpec)
    .ok (.prompt instructions specs)

/-- Asks the policy whether its template can render the catalog, and for a parser if so. -/
def resolveToolRendering (specs : List ToolSpec) : RolloutM σ ε ToolRendering :=
  if specs.isEmpty then pure .none
  else do
    let native ← ask out.supportsNativeTools
    let parser ← toolCallParser out native specs
    match resolveToolRenderingWith out native parser specs with
    | .error e => throw e
    | .ok rendering => pure rendering

/-- The rendering of a catalog, decided once for each. -/
def cachedRendering (specs : List ToolSpec) : RolloutM σ ε ToolRendering := do
  match out.encode (.array (specs.map specJson)) with
  | .error error => throw (.invalid s!"serialize tool list: {error}")
  | .ok key =>
    let world ← get
    match world.renderings.find? fun entry => entry.1 = key with
    | some entry => pure entry.2
    | none =>
      let rendering ← resolveToolRendering out specs
      modify fun world => { world with renderings := world.renderings ++ [(key, rendering)] }
      pure rendering

/-- The rendering of every trajectory of the group, from the first environment's tools. -/
def toolRendering : RolloutM σ ε ToolRendering := do
  let world ← get
  match world.environments with
  | [] => pure .none
  | environment :: _ =>
    match out.tools environment with
    | .error e => throw e
    | .ok specs => cachedRendering out specs

/-- One rendering call for the whole engine. -/
def renderFraming (messages : List Message) (rendering : ToolRendering) :
    RolloutM σ ε RenderedFraming :=
  ask (out.renderChatFraming messages rendering.templateSpecs)

/-- Renders the opening prompt and checks it leaves room to answer in. -/
def renderPrompt (messages : List Message) (rendering : ToolRendering) :
    RolloutM σ ε (List Token × String) := do
  let rendered ← renderFraming out messages rendering
  if rendered.tail.isEmpty || engine.limits.maxTrajectoryTokens ≤ rendered.tail.length then
    throw (.invalid "rendered scenario leaves no room in max_trajectory_tokens")
  else pure (rendered.tail, rendered.framing.tail)

/-! ### Opening -/

/-- The messages every member starts from. -/
def scenarioMessages (scenario : Scenario) (rendering : ToolRendering) : List Message :=
  let messages := match scenario.system with
    | some system => [Message.text .system system]
    | none => []
  let messages := match rendering with
    | .prompt instructions _ => injectToolInstructions messages instructions
    | _ => messages
  messages ++ [Message.text .user scenario.user]

/-- Resets every environment, each with its member's seed. -/
def resetAll (seeds : List UInt64) : RolloutM σ ε (List (Except Error (Option String))) :=
  fun world =>
    let resets := world.environments.zipWith out.reset seeds
    .ok (resets.map Prod.fst) { world with environments := resets.map Prod.snd }

/-- The openings of the environments, one for each seed even with no environment at all. -/
def openAll (seeds : List UInt64) : RolloutM σ ε (List (Except Error (Option String))) := do
  let world ← get
  if world.environments.isEmpty then pure (seeds.map fun _ => .ok none)
  else
    match ← beforeDeadline out engine (resetAll out seeds) with
    | some openings => pure openings
    | none => throw (.tool (deadlineExpired "resetting the environments"))

/-- A member's messages, with the text its environment opened on. -/
def openingMessages (messages : List Message) (opening : Except Error (Option String)) :
    List Message :=
  match opening with
  | .ok (some text) => messages ++ [Message.text .user text]
  | _ => messages

/-- Whether the members share one rendered scenario. -/
def sharesPrompt (openings : List (Except Error (Option String))) : Bool :=
  openings.all fun opening =>
    match opening with
    | .ok (some _) => false
    | _ => true

/-- The prompts of the members: one render for all of them when they share it. -/
def renderPrompts (messages : List Message)
    (openings : List (Except Error (Option String))) (rendering : ToolRendering) :
    RolloutM σ ε (Option (List Token × String) × List (Except Error (List Token × String))) :=
  if sharesPrompt openings then do
    match ← beforeDeadline out engine (renderPrompt out engine messages rendering) with
    | some prompt => pure (some prompt, openings.map fun _ => .ok prompt)
    | none => throw (.policyGeneration (deadlineExpired "rendering the scenario"))
  else do
    match ← beforeDeadline out engine (openings.mapM fun opening =>
        settled (renderPrompt out engine (openingMessages messages opening) rendering)) with
    | some prompts => pure (none, prompts)
    | none => throw (.policyGeneration (deadlineExpired "rendering the scenario"))

/-- A member's state before its first turn. -/
def openMember (messages : List Message) (seed : UInt64)
    (opening : Except Error (Option String)) (prompt : Except Error (List Token × String)) :
    RolloutState :=
  let messages := openingMessages messages opening
  let state := match prompt with
    | .ok prompt => RolloutState.new seed messages prompt
    | .error error => (RolloutState.new seed messages ([], "")).fail error
  match opening with
  | .ok _ => state
  | .error error => state.fail error

/-! ### One turn -/

/-- A batch of entries, each folded into its member. -/
def modifyAll {β : Type} (update : RolloutState → β → RolloutState)
    (states : List RolloutState) (entries : List (ℕ × β)) : List RolloutState :=
  entries.foldl (fun states entry => states.modify entry.1 fun state => update state entry.2)
    states

/-- Stops the members that still run. -/
def truncate (states : List RolloutState) (indices : List ℕ) : List RolloutState :=
  modifyAll (fun state () => if state.finished then state else state.stop true) states
    (indices.map fun index => (index, ()))

/-- Cuts the members that have no token left, and lists the ones that go on. -/
def openTurn (limits : RolloutLimits) (states : List RolloutState) :
    List RolloutState × List ℕ :=
  let states := states.map fun state =>
    if !state.finished && limits.maxTrajectoryTokens ≤ state.tokens.length then state.stop true
    else state
  (states, (List.range states.length).filter fun index =>
    (states[index]?).any fun state => !state.finished)

/-- The tokens a member may still sample in one turn. -/
def turnBudget (limits : RolloutLimits) (state : RolloutState) : ℕ :=
  min limits.maxNewTokensPerTurn (limits.maxTrajectoryTokens - state.tokens.length)

/-- The sampling seed of one turn: the trajectory's seed and the turn, diffused. -/
def samplingSeed (seed : UInt64) (turn : ℕ) : ℕ :=
  let state := seed ^^^ (UInt64.ofNat turn * 0x9E3779B97F4A7C15)
  let state := (state ^^^ (state >>> 30)) * 0xBF58476D1CE4E5B9
  let state := (state ^^^ (state >>> 27)) * 0x94D049BB133111EB
  (state ^^^ (state >>> 31)).toUInt32.toNat

/-- What one member asks the policy for: its context so far, and how to sample after it. -/
def turnRequest (limits : RolloutLimits) (turn : ℕ) (state : RolloutState) :
    List Token × SamplingParams :=
  (state.tokens, ⟨1, 1, turnBudget limits state, samplingSeed state.seed turn⟩)

/-- Splits a batch across the backend's sequence capacity. -/
def inChunks {α β : Type} (call : List α → RolloutM σ ε (List β)) (capacity : ℕ)
    (requests : List α) : RolloutM σ ε (List β) := do
  let parts ← (chunksOf (max capacity 1) requests.length requests).mapM call
  pure parts.flatten
where
  /-- `slice::chunks`; a chunk takes at least one request, so the length is fuel enough. -/
  chunksOf (size : ℕ) : ℕ → List α → List (List α)
    | 0, _ => []
    | _, [] => []
    | fuel + 1, requests => requests.take size :: chunksOf size fuel (requests.drop size)

/-- Samples a turn of the live members: on their shared prompt, or each on its own context. -/
def generate (sharedPrompt : Option (List Token × String)) (turn : ℕ)
    (requests : List (List Token × SamplingParams)) : RolloutM σ ε (List PolicyGeneration) :=
  match turn, sharedPrompt with
  | 0, some (prompt, _) =>
    inChunks (fun sampling => ask (out.generateShared prompt sampling)) out.sequenceCapacity
      (requests.map Prod.snd)
  | _, _ =>
    inChunks (fun requests => ask (out.generateContinuous requests)) out.sequenceCapacity
      requests

/-- The members after one batched call that failed. -/
def failAll (states : List RolloutState) (indices : List ℕ) (error : Error) :
    List RolloutState :=
  modifyAll (fun state () => state.fail error.duplicate) states
    (indices.map fun index => (index, ()))

/-- One entry applied to the member it is for; a member that goes on is listed with what it goes
on with. -/
def updateOne {β γ : Type} (update : RolloutState → β → RolloutState × Option γ)
    (acc : List RolloutState × List (ℕ × γ)) (entry : ℕ × β) :
    List RolloutState × List (ℕ × γ) :=
  match acc.1[entry.1]? with
  | none => acc
  | some state =>
    (acc.1.set entry.1 (update state entry.2).1,
      match (update state entry.2).2 with
      | some going => acc.2 ++ [(entry.1, going)]
      | none => acc.2)

/-- A batch of entries, each applied to its member. -/
def updateAll {β γ : Type} (update : RolloutState → β → RolloutState × Option γ)
    (states : List RolloutState) (entries : List (ℕ × β)) :
    List RolloutState × List (ℕ × γ) :=
  entries.foldl (updateOne update) (states, [])

/-- One generation applied to the member that asked for it. -/
def applyTurn (rendering : ToolRendering) (turn : ℕ) (state : RolloutState)
    (generation : PolicyGeneration) : RolloutState × Option ParsedAssistant :=
  applyGeneration engine.limits engine.fallbackParser rendering state generation
    (turnBudget engine.limits state) turn

/-- Steps the environments of the members that wait on one, in member order: `index` walks the
environments while the head of `pending` is looked for. -/
def stepPending (step : ε → ToolCall → Except Error StepOutcome × ε) :
    ℕ → List ε → List (ℕ × ParsedAssistant) → List EnvironmentTurn × List ε
  | _, [], _ => ([], [])
  | _, environments, [] => ([], environments)
  | index, environment :: rest, (member, parsed) :: pending =>
    if member ≠ index then
      let (turns, rest) := stepPending step (index + 1) rest ((member, parsed) :: pending)
      (turns, environment :: rest)
    else
      let (turn, environment) := stepEnvironment step environment parsed
      let (turns, rest) := stepPending step (index + 1) rest pending
      (turn :: turns, environment :: rest)

/-- Runs the stepping against the world's environments. -/
def stepAll (pending : List (ℕ × ParsedAssistant)) : RolloutM σ ε (List EnvironmentTurn) :=
  fun world =>
    let (turns, environments) := stepPending out.step 0 world.environments pending
    .ok turns { world with environments }

/-- Re-renders one member's conversation. -/
def renderMember (rendering : ToolRendering) (states : List RolloutState) (index : ℕ) :
    RolloutM σ ε (Except Error RenderedFraming) :=
  match states[index]? with
  | none => pure (.error (.core "index out of bounds"))
  | some state => settled (renderFraming out state.messages rendering)

/-- Folds every render back into its member. -/
def applyObservations (rendering : ToolRendering) (states : List RolloutState)
    (entries : List (ℕ × Observation × Except Error RenderedFraming)) : List RolloutState :=
  modifyAll (fun state entry =>
    applyObservation engine.limits rendering state entry.2 entry.1) states entries

/-- The part of a turn after the environments were stepped. The flag says whether the loop goes
on to the next turn. -/
def concludeTurn (rendering : ToolRendering) (live : List ℕ) (states : List RolloutState)
    (pending : List (ℕ × ParsedAssistant)) (turns : List EnvironmentTurn) :
    RolloutM σ ε (List RolloutState × Bool) :=
  let observed := updateAll (observe rendering) states ((pending.map Prod.fst).zip turns)
  if observed.2.isEmpty then pure (observed.1, true)
  else do
    match ← beforeDeadline out engine
        (observed.2.mapM fun entry => renderMember out rendering observed.1 entry.1) with
    | none => pure (truncate observed.1 live, false)
    | some renders =>
      pure (applyObservations engine rendering observed.1
        ((observed.2.zip renders).map fun entry => (entry.1.1, entry.1.2, entry.2)), true)

/-- The part of a turn after the generations were applied. -/
def stepTurn (rendering : ToolRendering) (live : List ℕ) (states : List RolloutState)
    (pending : List (ℕ × ParsedAssistant)) : RolloutM σ ε (List RolloutState × Bool) :=
  if pending.isEmpty then pure (states, true)
  else do
    ask (out.noteToolWait true)
    let turns ← beforeDeadline out engine (stepAll out pending)
    ask (out.noteToolWait false)
    match turns with
    | none => pure (truncate states live, false)
    | some turns => concludeTurn out engine rendering live states pending turns

/-- The part of a turn after the decode. -/
def generatedTurn (rendering : ToolRendering) (turn : ℕ) (live : List ℕ)
    (states : List RolloutState) (generated : Except Error (List PolicyGeneration)) :
    RolloutM σ ε (List RolloutState × Bool) :=
  match generated with
  | .error error => pure (failAll states live error, true)
  | .ok generated =>
    if generated.length ≠ live.length then
      pure (failAll states live (.policyGeneration (s!"policy returned {generated.length} " ++
        s!"generations for {live.length} sequences")), true)
    else
      let applied := updateAll (applyTurn engine rendering turn) states (live.zip generated)
      stepTurn out engine rendering live applied.1 applied.2

/-- Decodes one turn of the live members and plays it out. -/
def liveTurn (rendering : ToolRendering) (sharedPrompt : Option (List Token × String))
    (turn : ℕ) (live : List ℕ) (states : List RolloutState) :
    RolloutM σ ε (List RolloutState × Bool) := do
  let requests := live.filterMap fun index => (states[index]?).map
    (turnRequest engine.limits turn)
  match ← beforeDeadline out engine (settled (generate out sharedPrompt turn requests)) with
  | none => pure (truncate states live, false)
  | some generated => generatedTurn out engine rendering turn live states generated

/-- One turn of the group. -/
def lockstepTurn (rendering : ToolRendering) (sharedPrompt : Option (List Token × String))
    (turn : ℕ) (states : List RolloutState) : RolloutM σ ε (List RolloutState × Bool) := do
  let expired ← isLate out engine
  let states := if expired then truncate states (List.range states.length) else states
  let opened := openTurn engine.limits states
  if opened.2.isEmpty then pure (opened.1, false)
  else liveTurn out engine rendering sharedPrompt turn opened.2 opened.1

/-- The turns of a group, `turn` being the one that starts and `remaining` how many are left. -/
def turns (rendering : ToolRendering) (sharedPrompt : Option (List Token × String)) :
    ℕ → ℕ → List RolloutState → RolloutM σ ε (List RolloutState)
  | 0, _, states => pure states
  | remaining + 1, turn, states => do
    let (states, again) ← lockstepTurn out engine rendering sharedPrompt turn states
    if again then turns rendering sharedPrompt remaining (turn + 1) states else pure states

/-! ### Scores -/

/-- The members whose trajectory is worth scoring. -/
def scorable (states : List RolloutState) : List ℕ :=
  (List.range states.length).filter fun index =>
    (states[index]?).any fun state => state.failure.isNone

/-- Writes the scores of one batch back to its members, or what went wrong with them. -/
def applyScores (states : List RolloutState) (indices : List ℕ)
    (scores : Option (Except Error (List (List Float32)))) : List RolloutState :=
  match scores with
  | some (.ok scores) =>
    if scores.length = indices.length then
      modifyAll (fun state scores => { state with oldLogprobs := some scores }) states
        (indices.zip scores)
    else failAll states indices (.policyGeneration (s!"policy returned {scores.length} score " ++
      s!"rows for {indices.length} trajectories"))
  | some (.error error) => failAll states indices error
  | none => failAll states indices
      (.policyGeneration (deadlineExpired "rescoring the trajectories"))

/-- The scores of every surviving trajectory, in one batch. -/
def maskedScores (states : List RolloutState) :
    RolloutM σ ε (Option (Except Error (List (List Float32)))) :=
  let batch := (scorable states).filterMap fun index => (states[index]?).map fun state =>
    (state.tokens, state.trainMask)
  if batch.isEmpty then pure (some (.ok []))
  else beforeDeadline out engine (settled (ask (out.scoreMaskedBatch batch)))

/-- Scores every surviving trajectory. -/
def scoreAll (states : List RolloutState) : RolloutM σ ε (List RolloutState) := do
  let scores ← maskedScores out engine states
  pure (applyScores states (scorable states) scores)

/-! ### The rollout -/

/-- The lockstep loop. Its own failure is a group-wide one; the results are per member. -/
def rolloutLockstep (scenario : Scenario) (seeds : List UInt64) :
    RolloutM σ ε (List (Except Error Trajectory)) := do
  match ← beforeDeadline out engine (toolRendering out) with
  | none => throw (.tool (deadlineExpired "listing the environment tools"))
  | some rendering =>
    let messages := scenarioMessages scenario rendering
    let openings ← openAll out engine seeds
    let (sharedPrompt, prompts) ← renderPrompts out engine messages openings rendering
    let states := ((seeds.zip openings).zip prompts).map fun entry =>
      openMember messages entry.1.1 entry.1.2 entry.2
    let states ← turns out engine rendering sharedPrompt engine.limits.maxTurns 0 states
    let states ← scoreAll out engine states
    pure (states.zipIdx.map fun entry => finishTrajectory scenario rendering entry.2 entry.1)

/-- One environment for every member, or none when the engine has none. -/
def createEnvironments (count : ℕ) : RolloutM σ ε (List ε) :=
  if engine.hasEnvironments then (List.range count).mapM fun _ => ask out.create
  else pure []

/-- Creates the environments and runs the group. -/
def rolloutMany (scenario : Scenario) (seeds : List UInt64) :
    RolloutM σ ε (List (Except Error Trajectory)) := do
  match scenario.validate with
  | .error e => throw e
  | .ok () =>
    if seeds.isEmpty then throw (.invalid "rollout requires at least one seed")
    else
      match ← beforeDeadline out engine (createEnvironments out engine seeds.length) with
      | none => throw (.tool (deadlineExpired "creating the environments"))
      | some environments =>
        modify fun world => { world with environments }
        rolloutLockstep out engine scenario seeds

end Retrograd.Agent
