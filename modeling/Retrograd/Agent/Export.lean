import Retrograd.Agent.Record
import Retrograd.Agent.Trajectory

/-!
# Exporting a trajectory

A collected trajectory written back as a chat record: the scenario's own system turn rather than
the one the catalog was pasted into, each observation as the tool returned it, and the catalog in
a field of its own.
-/

namespace Retrograd.Agent

open Logic

/-- How an assistant turn is written: prose and calls apart, or the generated text verbatim. -/
inductive AssistantForm where
  | structured
  | raw
  deriving DecidableEq

variable (encode : Json → Except String String)

/-- The system turn a rollout of this scenario opens on, if it opens on one. -/
def expectedSystem (scenario : Scenario) (tools : List TemplateTool)
    (rendering : ToolRenderingKind) : Except Error (List Message) :=
  let expected := match scenario.system with
    | some system => [Message.text .system system]
    | none => []
  if rendering = .prompt then do
    let instructions ← promptToolInstructions encode tools
    pure (injectToolInstructions expected instructions)
  else .ok expected

/-- The rollout's first system turn must be the scenario's, with the catalog written in only
when the prompt path wrote it. -/
def checkSystemTurn (turn : Message) (scenario : Scenario) (tools : List TemplateTool)
    (rendering : ToolRenderingKind) : Except Error Unit := do
  let expected ← expectedSystem encode scenario tools rendering
  match expected with
  | first :: _ =>
    if first.content = turn.content then .ok ()
    else .error (.invalid systemMismatch)
  | [] => .error (.invalid systemMismatch)
where
  systemMismatch : String := "the trajectory's system turn is not the scenario's, with the " ++
    "catalog as the rollout writes it"

/-- The messages past the system turn the rollout opened on. -/
def pastSystem (trajectory : Trajectory) (scenario : Scenario) (tools : List TemplateTool)
    (rendering : ToolRenderingKind) : Except Error (List Message) :=
  let openedOnSystem := scenario.system.isSome || rendering = .prompt
  if !openedOnSystem then .ok trajectory.messages
  else
    match trajectory.messages with
    | first :: rest =>
      if first.role = .system then do
        checkSystemTurn encode first scenario tools rendering
        .ok rest
      else .error (.invalid noSystem)
    | [] => .error (.invalid noSystem)
where
  noSystem : String := "the trajectory does not open on the system turn its scenario and " ++
    "rendering call for"

def assistantMessage (message : Message) (prose reasoning : String) (form : AssistantForm) :
    ChatMessage where
  role := "assistant"
  content := match form with
    | .structured => prose
    | .raw => message.content
  toolCalls := message.toolCalls.map fun call => ⟨some call.id, call.name, call.arguments⟩
  toolCallId := none
  name := none
  isError := false
  raw := form = .raw
  reasoningContent := match form with
    | .structured => if reasoning.isEmpty then none else some reasoning
    | .raw => none

def toolMessage (message : Message) (rendering : ToolRenderingKind) :
    Except Error ChatMessage :=
  match message.toolCallId with
  | none => .error (.invalid "a trajectory observation has no call id")
  | some id =>
    match observationPayload rendering id message.content message.isError with
    | none => .error (.invalid
        s!"observation of call '{id}' is not one the rollout wrote for it")
    | some content => .ok { ChatMessage.text "tool" content with
        toolCallId := some id
        isError := message.isError }

/-- One message of the record; `turn` counts the assistant turns before it. -/
def recordMessage (provenance : Provenance) (form : AssistantForm) (turn : ℕ)
    (message : Message) : Except Error ChatMessage :=
  match message.role with
  | .system | .user => .ok (.text message.role.asStr message.content)
  | .assistant =>
    match provenance.assistantProse[turn]? with
    | none => .error (.invalid
        s!"trajectory has no recorded prose for assistant turn {turn}")
    | some prose => .ok (assistantMessage message prose
        ((provenance.assistantReasoning[turn]?).getD "") form)
  | .tool => toolMessage message provenance.rendering

/-- The messages of the record, from assistant turn `turn` on. -/
def recordMessages (provenance : Provenance) (form : AssistantForm) :
    ℕ → List Message → Except Error (List ChatMessage)
  | _, [] => .ok []
  | turn, message :: rest => do
    let record ← recordMessage provenance form turn message
    let records ← recordMessages provenance form
      (if message.role = .assistant then turn + 1 else turn) rest
    pure (record :: records)

/-- Writes a trajectory, collected on a scenario, as a chat record. -/
def toChatExample (trajectory : Trajectory) (scenario : Scenario) (form : AssistantForm) :
    Except Error ChatExample :=
  match trajectory.provenance with
  | none => .error (.invalid "only a trajectory this process collected can be exported")
  | some provenance => do
    let tools := provenance.tools.map TemplateTool.ofSpec
    let messages ← pastSystem encode trajectory scenario tools provenance.rendering
    let records ← recordMessages provenance form 0 messages
    let system := match scenario.system with
      | some system => [ChatMessage.text "system" system]
      | none => []
    let record : ChatExample := ⟨tools, system ++ records⟩
    match record.validate with
    | .error e => .error (.invalid
        s!"exported trajectory of '{trajectory.scenarioId}' is not a valid record: {e.text}")
    | .ok () => .ok record

end Retrograd.Agent
