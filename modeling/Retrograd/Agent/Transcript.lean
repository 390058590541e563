import Retrograd.Agent.Rollouts

/-!
# The transcript of a member

What a member's messages are at any moment: the opening, then one exchange after the other, each
an assistant turn with the observations that came back for it (`Transcript`). The prose and the
reasoning recorded beside the messages have one entry for each exchange. Every step of a member
keeps this form, and so does every returned trajectory (`Origin.transcript`).
-/

namespace Retrograd.Agent

open List
open Infer (Token)
open Training (SamplingParams)

/-- One assistant turn, and what came back for it. -/
structure Exchange where
  message : Message
  prose : String
  reasoning : String
  results : List ToolResult

/-- The messages of an exchange, as the rollout writes them. -/
def Exchange.messages (rendering : ToolRendering) (exchange : Exchange) : List Message :=
  exchange.message :: exchange.results.map fun result => observationMessage result rendering

/-- The messages are an opening and a list of exchanges. -/
structure Transcript (rendering : ToolRendering) (opening : List Message)
    (exchanges : List Exchange) (state : RolloutState) : Prop where
  messages : state.messages =
    opening ++ exchanges.flatMap (Exchange.messages rendering)
  prose : state.assistantProse = exchanges.map Exchange.prose
  reasoning : state.assistantReasoning = exchanges.map Exchange.reasoning
  roles : ∀ exchange ∈ exchanges, exchange.message.role = .assistant

section Steps

variable {rendering : ToolRendering} {opening : List Message} {exchanges : List Exchange}
  {state state' : RolloutState}

/-- A transcript is about the conversation alone. -/
theorem Transcript.congr (h : Transcript rendering opening exchanges state)
    (hmessages : state'.messages = state.messages)
    (hprose : state'.assistantProse = state.assistantProse)
    (hreasoning : state'.assistantReasoning = state.assistantReasoning) :
    Transcript rendering opening exchanges state' :=
  ⟨hmessages.trans h.messages, hprose.trans h.prose, hreasoning.trans h.reasoning, h.roles⟩

theorem Transcript.new (seed : UInt64) (prompt : List Token × String) :
    Transcript rendering opening [] (RolloutState.new seed opening prompt) where
  messages := by simp [RolloutState.new]
  prose := rfl
  reasoning := rfl
  roles := fun _ h => absurd h not_mem_nil

/-- A sampled turn starts an exchange. -/
theorem Transcript.append (h : Transcript rendering opening exchanges state)
    (generation : PolicyGeneration) (parsed : ParsedAssistant) :
    ∃ exchange, Transcript rendering opening (exchanges ++ [exchange])
      (appendGeneration state generation parsed) := by
  refine ⟨⟨sampledMessage generation.text parsed, parsed.content, parsed.reasoning, []⟩,
    ?_, ?_, ?_, ?_⟩
  · simp only [appendGeneration, RolloutState.pushStep, h.messages, flatMap_append,
      append_assoc, flatMap_singleton]
    rfl
  · simp [appendGeneration, RolloutState.pushStep, h.prose]
  · simp [appendGeneration, RolloutState.pushStep, h.reasoning]
  · intro exchange hexchange
    rcases mem_append.mp hexchange with hold | hnew
    · exact h.roles exchange hold
    · rw [mem_singleton.mp hnew]
      rfl

/-- What one generation leaves: the exchanges there were, with one more unless nothing was
sampled, and one more for sure when the turn goes on. -/
theorem Transcript.generate (limits : RolloutLimits) (fallbackParser : Parser)
    (h : Transcript rendering opening exchanges state) (generation : PolicyGeneration)
    (maxNewTokens turn : ℕ) :
    ∃ exchanges', Transcript rendering opening exchanges'
        (applyGeneration limits fallbackParser rendering state generation maxNewTokens turn).1 ∧
      ((applyGeneration limits fallbackParser rendering state generation maxNewTokens turn).2 ≠
        none → exchanges' ≠ []) := by
  cases hempty : generation.tokens.isEmpty with
  | true =>
    rw [applyGeneration_empty hempty]
    exact ⟨exchanges, h.congr rfl rfl rfl, fun hnone => absurd rfl hnone⟩
  | false =>
    obtain ⟨exchange, happend⟩ := h.append generation
      (readTurn fallbackParser rendering generation.text)
    obtain ⟨truncated, finished, cut, failed, invalid, hframe⟩ :=
      @applyGeneration_frame limits fallbackParser rendering state _ maxNewTokens turn hempty
    rw [hframe]
    exact ⟨exchanges ++ [exchange], happend.congr rfl rfl rfl, fun _ => by simp⟩

/-- What came back for a turn belongs to the last exchange. -/
theorem Transcript.observe (h : Transcript rendering opening exchanges state)
    (hsome : exchanges ≠ []) (turn : EnvironmentTurn) :
    ∃ exchanges', Transcript rendering opening exchanges' (observe rendering state turn).1 ∧
      exchanges' ≠ [] := by
  obtain ⟨before, last, rfl⟩ := eq_nil_or_concat' exchanges |>.resolve_left hsome
  refine ⟨before ++ [{ last with results := last.results ++ turn.observations }], ?_, by simp⟩
  obtain ⟨finished, failure, hframe⟩ := @observe_frame rendering state turn
  rw [hframe]
  refine ⟨?_, ?_, ?_, fun exchange hexchange => ?_⟩
  · simp [h.messages, Exchange.messages]
  · simp [h.prose]
  · simp [h.reasoning]
  · rcases mem_append.mp hexchange with hold | hnew
    · exact h.roles exchange (mem_append_left _ hold)
    · rw [mem_singleton.mp hnew]
      exact h.roles last (mem_append_right _ (mem_singleton.mpr rfl))

theorem Transcript.fold (limits : RolloutLimits)
    (h : Transcript rendering opening exchanges state) (render : Except Error RenderedFraming)
    (observation : Observation) :
    Transcript rendering opening exchanges
      (applyObservation limits rendering state render observation) := by
  rcases @applyObservation_frame limits rendering state render observation with ⟨truncated, failure, hframe⟩ | ⟨_, _, _, _, -, -, -, hframe⟩
  · rw [hframe]
    exact h.congr rfl rfl rfl
  · rw [hframe]
    exact h.congr rfl rfl rfl

end Steps

/-! ### Every member -/

variable {σ ε : Type} {out : Outside σ ε} {engine : Engine} {rendering : ToolRendering}
  {may : Answers} {opening : List Message}

/-- The transcript of a member in a phase: one that waits has a turn to wait for. -/
def Recorded (rendering : ToolRendering) (opening : List Message) (seat : Seat ε) : Prop :=
  ∃ exchanges, Transcript rendering opening exchanges seat.state ∧
    (seat.phase.waits → exchanges ≠ [])

theorem MemberStep.recorded {seat seat' : Seat ε}
    (h : MemberStep out engine rendering may seat seat')
    (hrecorded : Recorded rendering opening seat) : Recorded rendering opening seat' := by
  obtain ⟨exchanges, htranscript, hwaits⟩ := hrecorded
  cases h with
  | cut phase next state environment h =>
    exact ⟨exchanges, htranscript.congr rfl rfl rfl, fun h => h.elim⟩
  | exhaust turn state environment more live full =>
    exact ⟨exchanges, htranscript.congr rfl rfl rfl, fun h => h.elim⟩
  | lose phase next state environment error h =>
    exact ⟨exchanges, htranscript.congr rfl rfl rfl, fun h => h.elim⟩
  | settle phase next state environment h => exact ⟨exchanges, htranscript, fun h => h.elim⟩
  | generate turn state environment generation more live room answer =>
    obtain ⟨exchanges', htranscript', hmore⟩ := htranscript.generate engine.limits
      engine.fallbackParser generation (turnBudget engine.limits state) turn
    refine ⟨exchanges', htranscript', fun hphase => hmore fun hnone => ?_⟩
    unfold applyTurn at hphase
    rw [hnone] at hphase
    exact hphase.elim
  | answer turn parsed state environment =>
    obtain ⟨exchanges', htranscript', hmore⟩ := htranscript.observe (hwaits trivial)
      (stepEnvironment out.step environment parsed).1
    exact ⟨exchanges', htranscript', fun _ => hmore⟩
  | fold turn observation state environment render rendered =>
    exact ⟨exchanges, htranscript.fold engine.limits render observation, fun h => h.elim⟩

theorem MemberReach.recorded {seat seat' : Seat ε}
    (h : MemberReach out engine rendering may seat seat')
    (hrecorded : Recorded rendering opening seat) : Recorded rendering opening seat' := by
  induction h with
  | refl => exact hrecorded
  | tail _ hstep ih => exact hstep.recorded ih

/-! ### Every returned trajectory -/

/-- A returned trajectory tells a transcript, with the catalog it was rendered under. -/
structure Told (rendering : ToolRendering) (opening : List Message) (exchanges : List Exchange)
    (trajectory : Trajectory) (provenance : Provenance) : Prop where
  recorded : trajectory.provenance = some provenance
  messages : trajectory.messages =
    opening ++ exchanges.flatMap (Exchange.messages rendering)
  prose : provenance.assistantProse = exchanges.map Exchange.prose
  reasoning : provenance.assistantReasoning = exchanges.map Exchange.reasoning
  tools : provenance.tools = rendering.specs
  kind : provenance.rendering = rendering.kind
  roles : ∀ exchange ∈ exchanges, exchange.message.role = .assistant

/-- Finishing a member writes its transcript down. -/
theorem Transcript.finish {exchanges : List Exchange} {state : RolloutState}
    {scenario : Scenario} {member : ℕ} {trajectory : Trajectory}
    (h : Transcript rendering opening exchanges state)
    (hfinish : finishTrajectory scenario rendering member state = .ok trajectory) :
    ∃ provenance, Told rendering opening exchanges trajectory provenance := by
  unfold finishTrajectory at hfinish
  split at hfinish
  · cases hfinish
  · split at hfinish
    · cases hfinish
    · dsimp only at hfinish
      split at hfinish
      · cases hfinish
      · cases hfinish
        exact ⟨_, rfl, h.messages, h.prose, h.reasoning, rfl, rfl, h.roles⟩

/-- What a member opens on: the scenario, and its environment's own opening if it has one. -/
theorem openMember_transcript {messages : List Message} {seed : UInt64}
    {opening : Except Error (Option String)} {prompt : Except Error (List Token × String)} :
    Transcript rendering (openingMessages messages opening) []
      (openMember messages seed opening prompt) := by
  cases opening with
  | ok text =>
    cases prompt with
    | ok prompt => exact .new seed prompt
    | error e => exact (Transcript.new seed ([], "")).congr rfl rfl rfl
  | error e =>
    cases prompt with
    | ok prompt => exact (Transcript.new seed prompt).congr rfl rfl rfl
    | error e => exact (Transcript.new seed ([], "")).congr rfl rfl rfl

/-- **The transcript of a returned trajectory**: the scenario as it was rendered, an opening if
the environment gave one, then the exchanges. -/
theorem Origin.told {scenario : Scenario} {seed : UInt64} {environment : Option ε} {member : ℕ}
    {trajectory : Trajectory}
    (h : Origin out engine may scenario seed environment member trajectory) :
    ∃ (rendering : ToolRendering) (opening : Except Error (Option String))
      (exchanges : List Exchange) (provenance : Provenance), Resolved out rendering ∧
      Told rendering (openingMessages (scenarioMessages scenario rendering) opening) exchanges
        trajectory provenance := by
  obtain ⟨rendering, state', hresolved, ⟨render, state, environment', -, hreach, hscored⟩,
    hfinish⟩ := h
  obtain ⟨exchanges, htranscript, -⟩ := hreach.recorded
    ⟨[], openMember_transcript, fun hidle => hidle.elim⟩
  have htranscript' : Transcript rendering (openingMessages (scenarioMessages scenario rendering)
      (resetOf out environment seed).1) exchanges state' := by
    cases hscored with
    | failed h => exact htranscript
    | lost error h => exact htranscript.congr rfl rfl rfl
    | scored scores live h => exact htranscript.congr rfl rfl rfl
  obtain ⟨provenance, htold⟩ := htranscript'.finish hfinish
  exact ⟨rendering, _, exchanges, provenance, hresolved, htold⟩

end Retrograd.Agent
