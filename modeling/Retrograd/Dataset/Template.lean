import Retrograd.Agent.Record
import Retrograd.Agent.TurnCheck

/-!
# The contract of a chat template

What a template is handed for a conversation with tools, how its output is cut around the
assistant turns, and how an assistant turn is read back into calls. An assistant turn is handed
over as a **sentinel**, so what the template writes between two sentinels is framing; a
conversation whose sentinels are not each rendered once, in order, is refused.

Writing and reading JSON text are parameters.
-/

namespace Retrograd.Dataset

open Logic Agent

/-- How JSON text is written and read. -/
structure JsonText where
  encode : Json → Except String String
  decode : String → Except String Json
  /-- The text of a value in a message. -/
  display : Json → String

/-! ### Errors -/

/-- Which of a turn's placeholders a cut refers to. -/
inductive SpanPart where
  | reasoning
  | content

def SpanPart.text : SpanPart → String
  | reasoning => "reasoning"
  | content => "content"

/-- Why a conversation could not be handed to, or cut out of, a chat template. -/
inductive ChatTemplateError where
  | serialize (what source : String)
  | droppedTurn (turn turns : ℕ)
  | droppedReasoning (turn : ℕ)
  | reasoningAfterContent (turn : ℕ)
  | repeatedSentinel (turn : ℕ) (part : SpanPart)
  | unwritableCall (name : String)

def ChatTemplateError.text : ChatTemplateError → String
  | serialize what source => s!"serialize {what}: {source}"
  | droppedTurn turn turns =>
    s!"chat template did not render assistant turn {turn} of {turns}: a template that drops or " ++
      "reorders a turn cannot be used for multi-turn rollouts"
  | droppedReasoning turn =>
    s!"chat template drops the reasoning of assistant turn {turn} once the conversation " ++
      "continues past it, so the turns sampled after it continue a history inference never " ++
      "renders: such a template cannot be used for multi-turn rollouts of a model that reasons"
  | reasoningAfterContent turn =>
    s!"chat template renders the reasoning of assistant turn {turn} after its content"
  | repeatedSentinel turn part =>
    s!"chat template rendered the {part.text} of assistant turn {turn} more than once"
  | unwritableCall name =>
    s!"tool call '{name}' cannot be written in the <tool_call> convention: its arguments " ++
      "contain the closing tag"

/-- The crate's error. `rewrote` and `unreasoned` are the invalid-argument errors whose messages
quote two texts: the gap of a rewritten turn, and the reasoning a turn declares and the one read
back. `backend` is an error of the model's own. -/
inductive Error where
  | invalid (message : String)
  | tokenize (message : String)
  | rewrote (part : TurnPart) (turn : ℕ) (gap : TextGap)
  | unreasoned (turn : ℕ) (expected parsed : String)
  | backend (message : String)

/-- `Error::from(ChatTemplateError)`. -/
def Error.template (error : ChatTemplateError) : Error := .invalid error.text

/-! ### Texts -/

/-- What stands before and after the first occurrence of `pattern`. -/
def splitFirst (pattern : List Char) : List Char → Option (List Char × List Char)
  | [] => if pattern.isEmpty then some ([], []) else none
  | c :: rest =>
    if pattern.isPrefixOf (c :: rest) then some ([], (c :: rest).drop pattern.length)
    else (splitFirst pattern rest).map fun (before, after) => (c :: before, after)

/-- `text.split_once(pattern)`. -/
def splitOnce (text pattern : String) : Option (String × String) :=
  (splitFirst pattern.toList text.toList).map fun (before, after) =>
    (String.ofList before, String.ofList after)

/-- `text.matches(pattern).count()`, of a pattern that is not empty. -/
def countMatches (pattern : List Char) : ℕ → List Char → ℕ
  | 0, _ => 0
  | fuel + 1, text =>
    match splitFirst pattern text with
    | none => 0
    | some (_, after) => countMatches pattern fuel after + 1

/-- `text.strip_suffix(back)`. -/
def stripBack (text back : String) : Option String :=
  (back.toList.reverse.isPrefixOf? text.toList.reverse).map fun rest => String.ofList rest.reverse

/-- `text.trim_end()`. -/
def trimEnd (text : String) : String :=
  String.ofList (text.toList.reverse.dropWhile isWhitespace).reverse

/-! ### What the template is handed -/

/-- One tool call, as a template renders it and as a parser reads it back. -/
structure TemplateCall where
  id : String
  name : String
  arguments : Json

/-- One message as the template is handed it. -/
structure TemplateMessage where
  role : String
  content : String
  toolCallId : Option String := none
  toolCalls : List TemplateCall := []
  reasoning : Option String := none

/-- The placeholders one assistant turn was handed to the template as. -/
structure TurnSentinels where
  /-- For a turn whose reasoning is not empty. -/
  reasoning : Option String
  content : String

/-- The placeholder an assistant turn's text is replaced by. -/
def assistantSpan (index : ℕ) : String := s!"retro_span_{index}_9d41c7"

/-- The placeholder an assistant turn's reasoning is replaced by. -/
def reasoningSpan (index : ℕ) : String := s!"retro_reasoning_{index}_9d41c7"

def TurnSentinels.parts (sentinels : TurnSentinels) : List (SpanPart × String) :=
  (sentinels.reasoning.map fun reasoning => (SpanPart.reasoning, reasoning)).toList
    ++ [(.content, sentinels.content)]

def openaiCalls (calls : List TemplateCall) : Json :=
  .array <| calls.map fun call =>
    .object [("function", .object [("arguments", call.arguments), ("name", .string call.name)]),
      ("id", .string call.id), ("type", .string "function")]

/-- Which assistant turns are handed over instead of a sentinel. -/
inductive Reveal where
  | none
  | one (index : ℕ)

def Reveal.reveals : Reveal → ℕ → Bool
  | none, _ => false
  | one revealed, index => revealed == index

/-- The members of one message, in the order of their names, and the sentinels of an assistant
turn that is not revealed. -/
def serializeMessage (reveal : Reveal) (assistant : ℕ) (message : TemplateMessage) :
    Json × Option TurnSentinels :=
  let callId := (message.toolCallId.map fun id => ("tool_call_id", Json.string id)).toList
  let role := [("role", Json.string message.role)]
  if message.role ≠ "assistant" then
    (.object ([("content", .string message.content)] ++ role ++ callId), none)
  else if reveal.reveals assistant then
    let calls := if message.toolCalls.isEmpty then []
      else [("tool_calls", openaiCalls message.toolCalls)]
    let reasoning :=
      (message.reasoning.map fun text => ("reasoning_content", Json.string text)).toList
    (.object ([("content", .string message.content)] ++ reasoning ++ role ++ callId ++ calls), none)
  else
    let reasoning := (message.reasoning.filter fun text => !text.isEmpty).map
      fun _ => reasoningSpan assistant
    let content := assistantSpan assistant
    let block := (reasoning.map fun span => ("reasoning_content", Json.string span)).toList
    (.object ([("content", .string content)] ++ block ++ role ++ callId),
      some ⟨reasoning, content⟩)

/-- The messages from the `assistant`-th assistant turn on. -/
def serializeFrom (reveal : Reveal) : ℕ → List TemplateMessage → List Json × List TurnSentinels
  | _, [] => ([], [])
  | assistant, message :: rest =>
    let next := if message.role = "assistant" then assistant + 1 else assistant
    let (values, sentinels) := serializeFrom reveal next rest
    let (value, turn) := serializeMessage reveal assistant message
    (value :: values, turn.toList ++ sentinels)

/-- The conversation as the template reads it, and the sentinels of its turns in order. -/
def serializeMessages (json : JsonText) (messages : List TemplateMessage) (reveal : Reveal) :
    Except ChatTemplateError (String × List TurnSentinels) :=
  let (values, sentinels) := serializeFrom reveal 0 messages
  match json.encode (.array values) with
  | .error source => .error (.serialize "chat messages" source)
  | .ok text => .ok (text, sentinels)

/-- Every assistant turn a sentinel. -/
def templateMessages (json : JsonText) (messages : List TemplateMessage) :
    Except ChatTemplateError (String × List TurnSentinels) :=
  serializeMessages json messages .none

/-- One assistant turn handed over for real. -/
def templateMessagesRevealing (json : JsonText) (messages : List TemplateMessage) (reveal : ℕ) :
    Except ChatTemplateError String :=
  (serializeMessages json messages (.one reveal)).map Prod.fst

/-- The catalog in the OpenAI function shape. -/
def templateTools (json : JsonText) (tools : List TemplateTool) :
    Except ChatTemplateError String :=
  match json.encode (.array (tools.map fun tool =>
      .object [("function", .object [("description", .string tool.description),
        ("name", .string tool.name), ("parameters", tool.parameters)]),
        ("type", .string "function")])) with
  | .error source => .error (.serialize "tool definitions" source)
  | .ok text => .ok text

/-! ### Cutting the rendering -/

/-- Every sentinel has to be rendered exactly once. -/
def checkSentinel (rendered : String) (turns turn : ℕ) (sentinel : SpanPart × String) :
    Except ChatTemplateError Unit :=
  match countMatches sentinel.2.toList (rendered.length + 1) rendered.toList, sentinel.1 with
  | 1, _ => .ok ()
  | 0, .content => .error (.droppedTurn turn turns)
  | 0, .reasoning => .error (.droppedReasoning turn)
  | _, part => .error (.repeatedSentinel turn part)

/-- The framing around the turns from `turn` on, in what is left of the text. -/
def cutTurns (turns : ℕ) : ℕ → List TurnSentinels → List Char → Except ChatTemplateError Framing
  | _, [], rest => .ok ⟨[], String.ofList rest⟩
  | turn, sentinels :: more, rest =>
    match splitFirst sentinels.content.toList rest with
    | none => .error (.droppedTurn turn turns)
    | some (before, after) => do
      let pieces ← match sentinels.reasoning with
        | none => Except.ok (TurnPieces.mk (String.ofList before) none)
        | some reasoning =>
          match splitFirst reasoning.toList rest with
          | none => .error (.droppedTurn turn turns)
          | some (pre, _) =>
            if before.length < pre.length then .error (.reasoningAfterContent turn)
            else .ok ⟨String.ofList pre,
              some (String.ofList (before.drop (pre.length + reasoning.length)))⟩
      let framing ← cutTurns turns (turn + 1) more after
      .ok ⟨pieces :: framing.turns, framing.tail⟩

/-- Cuts a rendered conversation into the framing around its turns. -/
def splitTurns (rendered : String) (sentinels : List TurnSentinels) :
    Except ChatTemplateError Framing := do
  sentinels.zipIdx.forM fun (turn, index) =>
    turn.parts.forM (checkSentinel rendered sentinels.length index)
  cutTurns sentinels.length 0 sentinels rendered.toList

/-- What `whole` has in place of a turn's sentinels in `hidden`, when the rest of the text is
untouched. -/
def localTurn (hidden whole : String) (sentinels : TurnSentinels) : Option String := do
  let (before, _) ← splitFirst (sentinels.reasoning.getD sentinels.content).toList hidden.toList
  let (_, after) ← splitFirst sentinels.content.toList hidden.toList
  if whole.utf8ByteSize < (String.ofList before).utf8ByteSize + (String.ofList after).utf8ByteSize
  then none
  else
    let front ← stripFront whole (String.ofList before)
    stripBack front (String.ofList after)

/-! ### Reading calls back -/

/-- Why one tool call could not be read. -/
inductive ToolCallParseError where
  | unterminatedToolCall
  | invalidJson (source : String)
  | invalidArguments (source : String)
  | notAnObject
  | missingName
  | argumentsNotAnObject
  | unknownForm
  | unterminatedFunctionTag
  | missingFunctionName
  | unterminatedFunctionBlock
  | unterminatedParameterTag
  | missingParameterName
  | unterminatedParameterBlock (name : String)

def ToolCallParseError.text : ToolCallParseError → String
  | unterminatedToolCall => "unterminated <tool_call> block"
  | invalidJson source => s!"invalid tool-call JSON: {source}"
  | invalidArguments source => s!"invalid tool-call arguments: {source}"
  | notAnObject => "tool call must be a JSON object"
  | missingName => "tool call requires a non-empty string name"
  | argumentsNotAnObject => "tool call arguments must be a JSON object"
  | unknownForm => "tool call must be a JSON object or a <function=name> block"
  | unterminatedFunctionTag => "unterminated <function= tag"
  | missingFunctionName => "tool call requires a non-empty function name"
  | unterminatedFunctionBlock => "unterminated <function> block"
  | unterminatedParameterTag => "unterminated <parameter= tag"
  | missingParameterName => "tool call parameter requires a non-empty name"
  | unterminatedParameterBlock name => s!"unterminated <parameter={name}> block"

/-- What a parser read out of an assistant turn. -/
structure ParsedCalls where
  content : String := ""
  reasoning : String := ""
  calls : List TemplateCall := []
  /-- The calls that could not be read, with their position among the turn's calls. -/
  errors : List (ℕ × ToolCallParseError) := []

def hermesOpen : String := "<tool_call>"
def hermesClose : String := "</tool_call>"

/-- The non-empty string under `name`. -/
def nonEmptyMember (value : Json) (name : String) : Option String :=
  ((value.member name).bind Json.asStr).filter fun text => !text.isEmpty

def parseJsonCall (json : JsonText) (body : String) (index : ℕ) :
    Except ToolCallParseError TemplateCall :=
  match json.decode body with
  | .error source => .error (.invalidJson source)
  | .ok value =>
    if !value.isObject then .error .notAnObject
    else
      match nonEmptyMember value "name" with
      | none => .error .missingName
      | some name =>
        let arguments := (value.member "arguments").getD (.object [])
        if !arguments.isObject then .error .argumentsNotAnObject
        else .ok ⟨((value.member "id").bind Json.asStr).getD (positionalId index), name, arguments⟩

/-- A parameter's value: an object or an array written as JSON, everything else as text. -/
def parameterValue (json : JsonText) (raw : String) : Json :=
  let value := (stripFront raw "\n").getD raw
  let value := (stripBack value "\n").getD value
  let trimmed := trim value
  if startsWith trimmed "\x7b" || startsWith trimmed "[" then
    match json.decode trimmed with
    | .ok decoded => decoded
    | .error _ => .string value
  else .string value

/-- Sets a member of an object kept in the order of its names. -/
def setMember (name : String) (value : Json) : List (String × Json) → List (String × Json)
  | [] => [(name, value)]
  | (other, old) :: rest =>
    if name = other then (name, value) :: rest
    else if name < other then (name, value) :: (other, old) :: rest
    else (other, old) :: setMember name value rest

/-- The `<parameter=name>` blocks of a tagged call. -/
def parameters (json : JsonText) : ℕ → String → List (String × Json) →
    Except ToolCallParseError (List (String × Json))
  | 0, _, members => .ok members
  | fuel + 1, remainder, members =>
    match splitOnce remainder "<parameter=" with
    | none => .ok members
    | some (_, after) =>
      match splitOnce after ">" with
      | none => .error .unterminatedParameterTag
      | some (argument, after) =>
        if argument.isEmpty then .error .missingParameterName
        else
          match splitOnce after "</parameter>" with
          | none => .error (.unterminatedParameterBlock argument)
          | some (value, after) =>
            parameters json fuel after (setMember argument (parameterValue json value) members)

/-- The tag form of a call: `<function=name>` around one `<parameter=name>` block for each
argument. -/
def parseTaggedCall (json : JsonText) (body : String) (index : ℕ) :
    Except ToolCallParseError TemplateCall :=
  match stripFront body "<function=" with
  | none => .error .unknownForm
  | some after =>
    match splitOnce after ">" with
    | none => .error .unterminatedFunctionTag
    | some (name, body) =>
      if name.isEmpty then .error .missingFunctionName
      else
        match stripBack (trimEnd body) "</function>" with
        | none => .error .unterminatedFunctionBlock
        | some body => do
          let members ← parameters json (body.length + 1) body []
          .ok ⟨positionalId index, name, .object members⟩

def parseCall (json : JsonText) (body : String) (index : ℕ) :
    Except ToolCallParseError TemplateCall :=
  if startsWith body "\x7b" then parseJsonCall json body index
  else parseTaggedCall json body index

/-- The `<tool_call>` blocks of the remaining text, the next one being call `index`. -/
def parseHermesFrom (json : JsonText) : ℕ → ℕ → String → ParsedCalls
  | 0, _, remainder => { content := remainder }
  | fuel + 1, index, remainder =>
    match splitOnce remainder hermesOpen with
    | none => { content := remainder }
    | some (prose, after) =>
      match splitOnce after hermesClose with
      | none => { content := remainder, errors := [(index, .unterminatedToolCall)] }
      | some (body, after) =>
        let rest := parseHermesFrom json fuel (index + 1) after
        match parseCall json (trim body) index with
        | .ok call => { rest with content := prose ++ rest.content, calls := call :: rest.calls }
        | .error error =>
          { rest with content := prose ++ rest.content, errors := (index, error) :: rest.errors }

/-- Reads the `<tool_call>` conventions out of free text. -/
def parseHermes (json : JsonText) (output : String) : ParsedCalls :=
  let parsed := parseHermesFrom json (output.length + 1) 0 output
  { parsed with content := trim parsed.content }

/-- Writes calls in the JSON form of the `<tool_call>` convention, one line a call. -/
def hermesCallText (json : JsonText) (calls : List TemplateCall) :
    Except ChatTemplateError String := do
  let blocks ← calls.mapM fun call =>
    match json.encode (.object [("name", .string call.name), ("arguments", call.arguments)]) with
    | .error source => .error (.serialize "tool call" source)
    | .ok body =>
      if (splitOnce body hermesClose).isSome then .error (.unwritableCall call.name)
      else .ok (hermesOpen ++ body ++ hermesClose)
  .ok ("\n".intercalate blocks)

def decodeCall (json : JsonText) (call : Json) (index : ℕ) :
    Except ToolCallParseError TemplateCall :=
  if !call.isObject then .error .notAnObject
  else
    match nonEmptyMember call "name" with
    | none => .error .missingName
    | some name => do
      let raw := trim (((call.member "arguments").bind Json.asStr).getD "")
      let arguments ← if raw.isEmpty then .ok (Json.object [])
        else (json.decode raw).mapError .invalidArguments
      if !arguments.isObject then .error .argumentsNotAnObject
      else .ok ⟨(nonEmptyMember call "id").getD (positionalId index), name, arguments⟩

/-- Reads the document a template-derived parser produces. -/
def decodeParsedAssistant (json : JsonText) (document : String) : Except String ParsedCalls :=
  match json.decode document with
  | .error source => .error s!"invalid parsed-assistant document: {source}"
  | .ok value =>
    if !value.isObject then .error "parsed assistant must be a JSON object"
    else
      let text := fun name => trim (((value.member name).bind Json.asStr).getD "")
      match (value.member "tool_calls").bind Json.asArray with
      | none => .error "parsed assistant must carry a tool_calls array"
      | some calls =>
        let read := calls.zipIdx.map fun (call, index) => (index, decodeCall json call index)
        .ok {
          content := text "content"
          reasoning := text "reasoning_content"
          calls := read.filterMap fun entry => entry.2.toOption
          errors := read.filterMap fun entry =>
            match entry.2 with
            | .ok _ => none
            | .error error => some (entry.1, error) }

end Retrograd.Dataset
