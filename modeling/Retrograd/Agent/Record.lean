import Retrograd.Agent.Chat

/-!
# Chat records

One conversation of a chat-JSONL file and the checks it has to pass. `validateTools` walks the
messages with the calls of the last assistant turn that still wait for their result: every call
is answered before the next message that is not a `tool` one.
-/

namespace Retrograd.Agent

open Logic

/-- One call on an assistant turn. -/
structure ChatToolCall where
  id : Option String
  name : String
  arguments : Json

/-- The id of the call at a position, when it has none of its own. -/
def positionalId (index : ℕ) : String := s!"call_{index}"

/-- The id a call is answered under: its own, or its position in the turn. -/
def ChatToolCall.resolvedId (call : ChatToolCall) (index : ℕ) : String :=
  call.id.getD (positionalId index)

structure ChatMessage where
  role : String
  content : String
  toolCalls : List ChatToolCall
  toolCallId : Option String
  name : Option String
  isError : Bool
  raw : Bool
  reasoningContent : Option String

def ChatMessage.text (role content : String) : ChatMessage where
  role
  content
  toolCalls := []
  toolCallId := none
  name := none
  isError := false
  raw := false
  reasoningContent := none

structure ChatExample where
  tools : List TemplateTool
  messages : List ChatMessage

/-- Why a record that parsed is still not a conversation. -/
inductive ChatExampleError where
  | noMessages
  | unknownRole (role : String)
  | emptyContent
  | toolWithoutCall
  | unansweredCall (id : String)
  | unknownCallId (id : String)
  | toolNameMismatch (id name call : String)
  | undeclaredTool (name : String)
  | callsWithoutTools
  | emptyToolName
  | duplicateToolName (name : String)
  | argumentsNotAnObject (name : String)
  | toolFieldOnWrongRole (field role : String)
  | reasoningOnRawTurn
  deriving DecidableEq

/-- The text of an error. -/
def ChatExampleError.text : ChatExampleError → String
  | noMessages => "messages must not be empty"
  | unknownRole role => s!"unknown role '{role}'"
  | emptyContent => "message content must not be empty"
  | toolWithoutCall =>
    "a 'tool' message must follow an assistant turn with tool_calls, or another tool message"
  | unansweredCall id => s!"tool call '{id}' is never answered by a 'tool' message"
  | unknownCallId id =>
    s!"tool message answers '{id}', which is not a call still waiting for its result"
  | toolNameMismatch id name call =>
    s!"tool message for call '{id}' is named '{name}', but the call is to '{call}'"
  | undeclaredTool name => s!"tool call names '{name}', which the record's tools do not declare"
  | callsWithoutTools => "an assistant turn has tool_calls but the record declares no tools"
  | emptyToolName => "a tool name must not be empty"
  | duplicateToolName name => s!"tool '{name}' is declared twice"
  | argumentsNotAnObject name =>
    s!"the arguments of tool call '{name}' must be a JSON object, or a string holding one"
  | toolFieldOnWrongRole field role => s!"'{field}' is not allowed on a '{role}' message"
  | reasoningOnRawTurn =>
    "a raw assistant turn carries its reasoning in its content; drop 'reasoning_content'"

/-! ### One message -/

/-- The tool-only fields a message carries although its role does not have them. -/
def misplacedToolFields (message : ChatMessage) : List String :=
  let assistant := message.role = "assistant"
  let tool := message.role = "tool"
  [("tool_calls", !message.toolCalls.isEmpty && !assistant),
    ("raw", message.raw && !assistant),
    ("reasoning_content", message.reasoningContent.isSome && !assistant),
    ("tool_call_id", message.toolCallId.isSome && !tool),
    ("name", message.name.isSome && !tool),
    ("is_error", message.isError && !tool)].filterMap fun (field, misplaced) =>
      if misplaced then some field else none

/-- Whether a message of this shape may have no content. -/
def mayBeEmpty (message : ChatMessage) : Bool :=
  if message.role = "assistant" then !message.toolCalls.isEmpty
  else message.role = "tool"

/-- The checks on one message by itself. -/
def ChatMessage.validate (message : ChatMessage) : Except ChatExampleError Unit :=
  if message.role ∉ ["system", "user", "assistant", "tool"] then
    .error (.unknownRole message.role)
  else
    match misplacedToolFields message with
    | field :: _ => .error (.toolFieldOnWrongRole field message.role)
    | [] =>
      if message.raw && message.reasoningContent.isSome then .error .reasoningOnRawTurn
      else if message.content.isEmpty && !mayBeEmpty message then .error .emptyContent
      else .ok ()

/-! ### Tools -/

/-- The catalog's names, each of them once and none empty. -/
def declareTools : List String → List TemplateTool → Except ChatExampleError (List String)
  | declared, [] => .ok declared
  | declared, tool :: rest =>
    if tool.name.isEmpty then .error .emptyToolName
    else if tool.name ∈ declared then .error (.duplicateToolName tool.name)
    else declareTools (declared ++ [tool.name]) rest

/-- Where the walk over the messages stands: the calls of the last assistant turn that still
wait for their result, and whether a `tool` message may come next. -/
structure Answering where
  pending : List (String × String)
  answering : Bool

/-- The calls of one assistant turn join the ones that wait. -/
def pendCalls (declared : List String) (noTools : Bool) :
    ℕ → List ChatToolCall → List (String × String) →
      Except ChatExampleError (List (String × String))
  | _, [], pending => .ok pending
  | index, call :: rest, pending =>
    if call.name.isEmpty then .error .emptyToolName
    else if !call.arguments.isObject then .error (.argumentsNotAnObject call.name)
    else if noTools then .error .callsWithoutTools
    else if call.name ∉ declared then .error (.undeclaredTool call.name)
    else pendCalls declared noTools (index + 1) rest
      (pending ++ [(call.resolvedId index, call.name)])

/-- The position of the call a `tool` message answers. -/
def answeredPosition (pending : List (String × String)) (message : ChatMessage) :
    Except ChatExampleError ℕ :=
  match message.toolCallId with
  | some id =>
    match pending.findIdx? fun entry => entry.1 = id with
    | some position => .ok position
    | none => .error (.unknownCallId id)
  | none => if pending.isEmpty then .error .toolWithoutCall else .ok 0

/-- A `tool` message takes the call it answers out of the ones that wait. -/
def answerCall (state : Answering) (message : ChatMessage) :
    Except ChatExampleError Answering :=
  if !state.answering then .error .toolWithoutCall
  else do
    let position ← answeredPosition state.pending message
    match state.pending[position]?, message.name with
    | some (id, call), some name =>
      if name ≠ call then .error (.toolNameMismatch id name call)
      else .ok { state with pending := state.pending.eraseIdx position }
    | _, _ => .ok { state with pending := state.pending.eraseIdx position }

/-- One message of the walk. -/
def walkMessage (declared : List String) (noTools : Bool) (state : Answering)
    (message : ChatMessage) : Except ChatExampleError Answering :=
  if message.role = "tool" then answerCall state message
  else
    match state.pending with
    | (id, _) :: _ => .error (.unansweredCall id)
    | [] => do
      let pending ← pendCalls declared noTools 0 message.toolCalls []
      .ok ⟨pending, message.role = "assistant" && !message.toolCalls.isEmpty⟩

/-- The catalog and the calls, checked without a model. -/
def ChatExample.validateTools (record : ChatExample) : Except ChatExampleError Unit := do
  let declared ← declareTools [] record.tools
  let state ← record.messages.foldlM (walkMessage declared record.tools.isEmpty) ⟨[], false⟩
  match state.pending with
  | (id, _) :: _ => .error (.unansweredCall id)
  | [] => .ok ()

def ChatExample.validate (record : ChatExample) : Except ChatExampleError Unit :=
  if record.messages.isEmpty then .error .noMessages
  else do
    record.messages.forM ChatMessage.validate
    record.validateTools

end Retrograd.Agent
