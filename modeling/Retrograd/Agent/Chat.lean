import Retrograd.Logic.Json
import Retrograd.Logic.Text
import Mathlib.Data.List.Sort

/-!
# Conversations with tools

The messages of a rollout, the tools it offers and the calls it makes, and the contract the chat
template is driven through: how the catalog and an observation are written, and how an
observation is read back (`observationPayload` inverts `observationText`).
-/

namespace Retrograd.Agent

open Logic

/-! ### Errors -/

/-- Which part of a turn's framing a re-render does not reproduce. -/
inductive TurnPart where
  | before
  | reasoning
  | content
  deriving DecidableEq

/-- Where the history and the sampled text of a turn part ways, each text cut short. -/
structure TextGap where
  history : String
  sampled : String
  deriving DecidableEq

/-- The agent stack's error. `rewrote` is the invalid-configuration error whose message quotes
the two texts of a gap. -/
inductive Error where
  | core (message : String)
  | invalid (message : String)
  | rewrote (part : TurnPart) (turn : ℕ) (gap : TextGap)
  | policyStopped
  | policyTask (message : String)
  | policyGeneration (message : String)
  | tool (message : String)
  | sandbox (message : String)
  | reward (message : String)
  deriving DecidableEq

/-- A copy for every member of a batch one error killed. -/
def Error.duplicate : Error → Error
  | .core message => .policyGeneration message
  | error => error

/-! ### Tools -/

/-- One tool an environment offers. -/
structure ToolSpec where
  name : String
  description : String
  inputSchema : Json

/-- The chat-template view of a catalog entry. -/
structure TemplateTool where
  name : String
  description : String
  parameters : Json

/-- `TemplateTool::from`. -/
def TemplateTool.ofSpec (spec : ToolSpec) : TemplateTool :=
  ⟨spec.name, spec.description, spec.inputSchema⟩

/-- One call, as a parser read it out of a turn. -/
structure ToolCall where
  id : String
  name : String
  arguments : Json

/-- What came back for one call. A failed action is an observation with `isError`. -/
structure ToolResult where
  callId : String
  content : String
  isError : Bool
  deriving DecidableEq

/-- What a parser reads out of one sampled turn. -/
structure ParsedAssistant where
  content : String
  reasoning : String
  toolCalls : List ToolCall
  /-- Invalid calls, as the observations they come back as. -/
  parseErrors : List ToolResult

/-- A parser of assistant turns. -/
abbrev Parser := String → ParsedAssistant

/-! ### Messages -/

/-- Who a message comes from. -/
inductive Role where
  | system
  | user
  | assistant
  | tool
  deriving DecidableEq

/-- The spelling of a role on the wire. -/
def Role.asStr : Role → String
  | .system => "system"
  | .user => "user"
  | .assistant => "assistant"
  | .tool => "tool"

structure Message where
  role : Role
  content : String
  toolCalls : List ToolCall
  toolCallId : Option String
  /-- On a `tool` message: the observation reports a failed call. -/
  isError : Bool
  /-- On an `assistant` message: the reasoning block its parser split out, when not empty. -/
  reasoning : Option String

/-- A message that is only text. -/
def Message.text (role : Role) (content : String) : Message where
  role
  content
  toolCalls := []
  toolCallId := none
  isError := false
  reasoning := none

/-! ### Rendering the catalog -/

/-- How a conversation's tools reach the model. -/
inductive ToolRenderingKind where
  | native
  | prompt
  | none
  deriving DecidableEq

/-- The rendering a catalog of `declared` tools gets: native only when the template renders a
catalog and a parser for its format could be derived. -/
def decideRendering (declared : ℕ) (supportsNative hasParser : Bool) : ToolRenderingKind :=
  if declared = 0 then .none
  else if supportsNative && hasParser then .native
  else .prompt

/-- How the tools are rendered, with the payload each choice carries. -/
inductive ToolRendering where
  | native (specs : List ToolSpec) (parser : Parser)
  | prompt (instructions : String) (specs : List ToolSpec)
  | none

namespace ToolRendering

/-- The catalog, in the order the environment listed it. -/
def specs : ToolRendering → List ToolSpec
  | native specs _ => specs
  | prompt _ specs => specs
  | none => []

/-- The decision alone. -/
def kind : ToolRendering → ToolRenderingKind
  | native .. => .native
  | prompt .. => .prompt
  | none => .none

/-- The catalog the template itself is handed. -/
def templateSpecs : ToolRendering → List ToolSpec
  | native specs _ => specs
  | _ => []

/-- How many tools the run declared. -/
def declaredTools (rendering : ToolRendering) : ℕ := rendering.specs.length

end ToolRendering

/-! ### The prompt-described catalog -/

/-- One catalog entry of the prompt-described convention. -/
def promptTool (tool : TemplateTool) : Json :=
  .object [("name", .string tool.name), ("description", .string tool.description),
    ("input_schema", tool.parameters)]

/-- The catalog's text: the tools sorted by name, in the `<tool_call>` convention. The JSON
encoder is a parameter. -/
def promptToolInstructions (encode : Json → Except String String) (tools : List TemplateTool) :
    Except Error String :=
  let canonical := tools.mergeSort fun a b => decide (a.name ≤ b.name)
  match encode (.array (canonical.map promptTool)) with
  | .error source => .error (.invalid s!"serialize tool definitions: {source}")
  | .ok definitions => .ok (s!"Available tools (JSON): {definitions}\n" ++ ("Call a tool with " ++
      "<tool_call>\x7b\"name\":\"tool_name\",\"arguments\":\x7b...\x7d\x7d</tool_call>."))

/-- Writes the catalog into the first system turn, after a blank line, or into a system turn of
its own at the head of the conversation. -/
def injectToolInstructions (messages : List Message) (instructions : String) : List Message :=
  match messages.findIdx? fun message => message.role = .system with
  | some i => messages.modify i fun message =>
      { message with content := message.content ++ "\n\n" ++ instructions }
  | none => Message.text .system instructions :: messages

/-! ### Observations -/

/-- The marker of a failed call. -/
def errorMarker : String := "ERROR: "

/-- The text an observation is rendered as. -/
def observationText (kind : ToolRenderingKind) (callId content : String) (isError : Bool) :
    String :=
  let marker := if isError then errorMarker else ""
  match kind with
  | .native => marker ++ content
  | .prompt | .none => callId ++ (": " ++ (marker ++ content))

/-- The tool's own output, or nothing when `text` was not written for this call. -/
def observationPayload (kind : ToolRenderingKind) (callId text : String) (isError : Bool) :
    Option String := do
  let text ← match kind with
    | .native => some text
    | .prompt | .none => (stripFront text callId).bind fun rest => stripFront rest ": "
  if isError then stripFront text errorMarker else some text

/-- Reading an observation back gives what was written. -/
@[simp] theorem observationPayload_observationText (kind : ToolRenderingKind)
    (callId content : String) (isError : Bool) :
    observationPayload kind callId (observationText kind callId content isError) isError =
      some content := by
  cases kind <;> cases isError <;>
    simp [observationPayload, observationText]

/-- One observation as the message the template will render. -/
def observationMessage (observation : ToolResult) (rendering : ToolRendering) : Message where
  role := .tool
  content := observationText rendering.kind observation.callId observation.content
    observation.isError
  toolCalls := []
  toolCallId := some observation.callId
  isError := observation.isError
  reasoning := none

/-! ### Framing -/

/-- What a template writes around one sampled turn: before its first placeholder, and between
its reasoning and its content when it has some. -/
structure TurnPieces where
  pre : String
  mid : Option String
  deriving DecidableEq

/-- A rendered conversation cut around its sampled turns. -/
structure Framing where
  turns : List TurnPieces
  tail : String

end Retrograd.Agent
