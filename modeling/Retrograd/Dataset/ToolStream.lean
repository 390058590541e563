import Retrograd.Dataset.Template
import Retrograd.Infer.Request

/-!
# Tool records as token streams

A tool record is rendered the way a rollout renders its conversation: the template writes the
framing around the assistant turns, each turn is tokenized on its own, and the token generation
stops on closes it. The **train mask** is true over the turns and their closing tokens only.

Everything that writes or reads text is the backend's, an arbitrary function.
-/

namespace Retrograd.Dataset

open Logic Agent
open Infer (Token)

/-- What dataset preparation needs from a model. -/
structure DatasetBackend where
  tokenizeText : String → Except String (List Token)
  eosToken : Except String Token
  formatChat : List (String × String) → Bool → Except String String
  tokenizeFragment : String → Except String (List Token)
  isEogToken : Token → Except String Bool
  formatChatMessages : String → Option String → Bool → Except String String
  chatTemplateSupportsTools : Except String Bool
  toolCallParser : String → Except String (Option String)
  parseAssistant : String → String → Except String String

/-- An answer of the backend. -/
def ask {α : Type} (answer : Except String α) : Except Error α := answer.mapError .backend

/-- A step through the template contract. -/
def through {α : Type} (result : Except ChatTemplateError α) : Except Error α :=
  result.mapError .template

/-- How one catalog is rendered. -/
structure Rendering where
  kind : ToolRenderingKind
  /-- The catalog handed to the template, under native rendering only. -/
  toolsJson : Option String
  parser : Option String
  /-- The catalog written into the system turn, under prompt rendering only. -/
  instructions : Option String

/-- A token stream, and which of its tokens are the model's own. -/
structure ToolStream where
  tokens : List Token
  trainMask : List Bool

/-- Appends tokens that are all trained, or all not. -/
def ToolStream.extend (stream : ToolStream) (tokens : List Token) (trained : Bool) : ToolStream :=
  ⟨stream.tokens ++ tokens, stream.trainMask ++ List.replicate tokens.length trained⟩

variable (json : JsonText) (backend : DatasetBackend)

/-! ### The rendering of a catalog -/

/-- The text of the catalog under prompt rendering. -/
def instructionsOf (tools : List TemplateTool) : Except Error String :=
  match promptToolInstructions json.encode tools with
  | .ok text => .ok text
  | .error (.invalid message) => .error (.invalid message)
  | .error _ => .error (.invalid "serialize tool definitions")

/-- Native when the template renders tools and yields a parser for them, the prompt-described
convention otherwise. -/
def renderingOf (tools : List TemplateTool) : Except Error Rendering :=
  if tools.isEmpty then .ok ⟨.none, none, none, none⟩
  else do
    let toolsJson ← through (templateTools json tools)
    let native ← ask backend.chatTemplateSupportsTools
    let parser ← if native then ask (backend.toolCallParser toolsJson) else .ok none
    match decideRendering tools.length native parser.isSome with
    | .native => .ok ⟨.native, some toolsJson, parser, none⟩
    | kind => do
      let instructions ← instructionsOf json tools
      .ok ⟨kind, none, none, some instructions⟩

/-- Reads an assistant turn back with the parser its rendering pairs with. -/
def readBack (rendering : Rendering) (text : String) : Except String ParsedCalls :=
  match rendering.kind, rendering.parser with
  | .native, some parser => do
    let document ← backend.parseAssistant parser text
    decodeParsedAssistant json document
  | .prompt, _ => .ok (parseHermes json text)
  | _, _ => .ok { content := text }

/-! ### The conversation the template is handed -/

/-- The calls of a message under the ids they are answered by. -/
def turnCalls (message : ChatMessage) : List TemplateCall :=
  message.toolCalls.zipIdx.map fun (call, index) =>
    ⟨call.resolvedId index, call.name, call.arguments⟩

/-- The call id each `tool` message answers: its own, or the next call still waiting. -/
def resolveAnswers : List String → List ChatMessage → List (Option String)
  | _, [] => []
  | pending, message :: rest =>
    if message.role = "tool" then
      let position := (message.toolCallId.bind fun id => pending.findIdx? (· = id)).getD 0
      pending[position]? :: resolveAnswers (pending.eraseIdx position) rest
    else none :: resolveAnswers ((turnCalls message).map TemplateCall.id) rest

/-- Writes the catalog into the first system turn, or into one of its own. -/
def injectInstructions (messages : List TemplateMessage) (instructions : String) :
    List TemplateMessage :=
  match messages.findIdx? fun message => message.role = "system" with
  | some i => messages.modify i fun message =>
      { message with content := message.content ++ "\n\n" ++ instructions }
  | none => { role := "system", content := instructions } :: messages

/-- One message of the record as the template is handed it. A raw turn's reasoning is what its
parser reads out of it. -/
def templateMessage (rendering : Rendering) (message : ChatMessage) (answer : Option String) :
    Except Error TemplateMessage :=
  if message.role = "tool" then
    match answer with
    | none => .error (.invalid "validated: every observation answers a call")
    | some id => .ok {
        role := "tool"
        content := observationText rendering.kind id message.content message.isError
        toolCallId := some id }
  else
    let rawReasoning := if message.raw then
        ((readBack json backend rendering message.content).toOption.map fun parsed =>
          trim parsed.reasoning)
      else none
    .ok {
      role := message.role
      content := message.content
      toolCalls := turnCalls message
      reasoning := rawReasoning.or message.reasoningContent }

/-- The whole conversation, the catalog included. -/
def conversationMessages (rendering : Rendering) (messages : List ChatMessage) :
    Except Error (List TemplateMessage) := do
  let rendered ← (messages.zip (resolveAnswers [] messages)).mapM fun (message, answer) =>
    templateMessage json backend rendering message answer
  .ok (match rendering.instructions with
    | some instructions => injectInstructions rendered instructions
    | none => rendered)

/-! ### The text of a turn -/

/-- What a structured turn's text is cut out of. -/
structure TurnSource where
  rendering : Rendering
  messages : List TemplateMessage
  /-- The conversation rendered with every turn a sentinel. -/
  hidden : String
  sentinels : List TurnSentinels

def callsText (calls : List TemplateCall) : String :=
  json.display (.array (calls.map fun call =>
    .object [("arguments", call.arguments), ("name", .string call.name)]))

/-- The calls that were read back are the ones the turn declares. -/
def sameCalls (parsed declared : List TemplateCall) : Bool :=
  parsed.length == declared.length && (parsed.zip declared).all fun (read, call) =>
    read.name == call.name && read.arguments.beq call.arguments

/-- What a turn teaches is what a rollout will read: the same calls, nothing that fails to
parse, and the reasoning it declares. -/
def checkReadBack (rendering : Rendering) (turn : ℕ) (text : String)
    (declared : List TemplateCall) (reasoning : Option String) : Except Error Unit :=
  let mismatch := fun (parsed : String) => Error.invalid
    (s!"assistant turn {turn} does not read back as the calls it declares: expected " ++
      s!"{callsText json declared}, parsed {parsed}")
  match readBack json backend rendering text with
  | .error message => .error (mismatch message)
  | .ok parsed =>
    match reasoning.filter fun reasoning => trim parsed.reasoning ≠ trim reasoning with
    | some reasoning => .error (.unreasoned turn (trim reasoning) (trim parsed.reasoning))
    | none =>
      if parsed.errors.isEmpty && sameCalls parsed.calls declared then .ok ()
      else .error (mismatch (parsed.errors.foldl (fun text (index, error) =>
        text ++ s!"; call {index}: {error.text}") (callsText json parsed.calls)))

/-- What the template itself writes for a structured turn, after what the history writes before
its reasoning beyond the generation prompt. -/
def writtenTurn (source : TurnSource) (turn : ℕ) (reasoning : Option String)
    (committed : String) (pieces : TurnPieces) : Except Error String := do
  let revealed ← through (templateMessagesRevealing json source.messages turn)
  let whole ← ask (backend.formatChatMessages revealed source.rendering.toolsJson false)
  match (source.sentinels[turn]?).bind (localTurn source.hidden whole) with
  | none => .error (.invalid (s!"the chat template renders assistant turn {turn} non-locally; " ++
      "use raw assistant turns"))
  | some written =>
    let opening := if reasoning.isSome then (stripFront pieces.pre committed).getD "" else ""
    .ok (opening ++ written)

/-- The text one assistant turn is trained as, checked to read back as the record declares. -/
def turnText (source : TurnSource) (turn : ℕ) (message : ChatMessage)
    (committed : String) (pieces : TurnPieces) : Except Error String := do
  let declared := turnCalls message
  let reasoning := message.reasoningContent.filter fun reasoning => !reasoning.isEmpty
  let text ←
    if message.raw || (declared.isEmpty && reasoning.isNone) then .ok message.content
    else if declared.isEmpty || source.rendering.kind = .native then
      writtenTurn json backend source turn reasoning committed pieces
    else do
      let calls ← through (hermesCallText json declared)
      .ok (if message.content.isEmpty then calls else message.content ++ "\n" ++ calls)
  -- prose that already holds calls would teach every call twice
  let prose := readBack json backend source.rendering message.content
  if !message.raw && !declared.isEmpty && !message.content.isEmpty
      && prose.toOption.any fun parsed => !parsed.calls.isEmpty || !parsed.errors.isEmpty then
    .error (.invalid
      s!"assistant turn {turn} gives its tool calls twice, in content and in tool_calls")
  else do
    checkReadBack json backend source.rendering turn text declared reasoning
    .ok text

/-- What the parser reads out of a text, as far as telling two turns apart goes. -/
def readingOf (rendering : Rendering) (text : String) : TurnReading :=
  match readBack json backend rendering text with
  | .ok parsed => {
      reasoning := trim parsed.reasoning
      content := trim parsed.content
      calls := !parsed.calls.isEmpty || !parsed.errors.isEmpty }
  | .error _ => { reasoning := "", content := trim text, calls := true }

/-- The check a rollout runs on a turn the first time the conversation is rendered past it. -/
def checkTurn (rendering : Rendering) (turn : ℕ) (committed text : String) (pieces : TurnPieces) :
    Except Error Unit :=
  let sampled := readingOf json backend rendering text
  let read := if rendering.kind = .native then some (readingOf json backend rendering) else none
  match verifyTurn committed ⟨text, sampled.reasoning, sampled.content⟩ pieces read with
  | .rewritten part gap => .error (.rewrote part turn gap)
  | _ => .ok ()

/-! ### The texts of a stream -/

/-- The conversation up to an assistant turn, with the generation prompt. -/
def framingOf (messages : List TemplateMessage) (toolsJson : Option String) :
    Except Error Framing := do
  let (text, sentinels) ← through (templateMessages json messages)
  let rendered ← ask (backend.formatChatMessages text toolsJson true)
  through (splitTurns rendered sentinels)

/-- The generation prompts committed so far, the framing of the turns already checked, and the
texts of the turns. -/
structure Committed where
  committed : List String := []
  checked : List TurnPieces := []
  turns : List String := []

/-- Renders the conversation up to the assistant turn at `position`, and checks the turn before
it, which that rendering is the first to go past. -/
def commitTurn (source : TurnSource) (assistants : List ChatMessage) (state : Committed)
    (entry : ℕ × ℕ) : Except Error Committed := do
  let (position, turn) := entry
  let framing ← framingOf json backend (source.messages.take position) source.rendering.toolsJson
  match movedPiece state.checked framing.turns with
  | some (moved, part, gap) => .error (.rewrote part moved gap)
  | none =>
    let state ← match turn with
      | 0 => Except.ok state
      | previous + 1 => do
        let pieces := framing.turns[previous]?.getD ⟨"", none⟩
        let message := assistants[previous]?.getD (.text "assistant" "")
        let prompt := state.committed[previous]?.getD ""
        let text ← turnText json backend source previous message prompt pieces
        checkTurn json backend source.rendering previous prompt text pieces
        .ok { state with checked := state.checked ++ [pieces], turns := state.turns ++ [text] }
    .ok { state with committed := state.committed ++ [framing.tail] }

/-- The text of every assistant turn, the generation prompt each follows, and what the finished
conversation ends with. -/
structure StreamTexts where
  committed : List String
  turns : List String
  tail : String

/-- A tool record is refused unless it ends on an assistant turn or on the observations that
answer it. -/
def endsWithAssistant (messages : List ChatMessage) : Bool :=
  (messages.reverse.find? fun message => message.role ≠ "tool").all fun message =>
    message.role = "assistant"

/-- The texts of the stream a rollout of this conversation would have produced. -/
def streamTexts (example_ : ChatExample) : Except Error StreamTexts := do
  (example_.validate).mapError fun error => Error.invalid error.text
  let assistants := example_.messages.filter fun message => message.role = "assistant"
  if assistants.isEmpty then .error (.invalid "messages must contain an assistant response")
  else if !endsWithAssistant example_.messages then
    .error (.invalid ("a tool record must end on an assistant turn, or on the observations that " ++
      "answer it: nothing after the last one is learned"))
  else do
    let rendering ← renderingOf json backend example_.tools
    let messages ← conversationMessages json backend rendering example_.messages
    let positions := (messages.zipIdx.filter fun entry => entry.1.role = "assistant").map Prod.snd
    let (text, sentinels) ← through (templateMessages json messages)
    let rendered ← ask (backend.formatChatMessages text rendering.toolsJson false)
    let finished ← through (splitTurns rendered sentinels)
    let source : TurnSource := ⟨rendering, messages, rendered, sentinels⟩
    let state ← positions.zipIdx.foldlM (commitTurn json backend source assistants) {}
    -- the last turn is never rendered past by a rollout
    let last := assistants.length - 1
    let text ← turnText json backend source last (assistants[last]?.getD (.text "assistant" ""))
      (state.committed[last]?.getD "") (finished.turns[last]?.getD ⟨"", none⟩)
    .ok ⟨state.committed, state.turns ++ [text], finished.tail⟩

/-! ### The tokens of a stream -/

/-- The token that closes a turn and the framing after it: when the next piece opens with an
end-of-generation token, that is the one the policy sampled; otherwise it stopped on its own. -/
def closeTurn (eos : Token) (next : List Token) : Except Error (Token × List Token) :=
  match next with
  | [] => .ok (eos, [])
  | closer :: framing => do
    if ← ask (backend.isEogToken closer) then .ok (closer, framing) else .ok (eos, closer :: framing)

/-- The turns left, each followed by the framing before the next; `committed` are the prompts of
the turns after the first of them. -/
def assembleFrom (eos : Token) (tail : String) :
    List String → List String → ToolStream → Except Error ToolStream
  | [], _, stream => .ok stream
  | text :: turns, committed, stream => do
    let sampled ← ask (backend.tokenizeFragment text)
    let next ← ask (backend.tokenizeFragment (committed.head?.getD tail))
    let (closer, framing) ← closeTurn backend eos next
    let stream := (stream.extend sampled true).extend [closer] true
    let stream := if turns.isEmpty then stream else stream.extend framing false
    assembleFrom eos tail turns committed.tail stream

/-- The first prompt, then every turn. -/
def assemble (texts : StreamTexts) : Except Error ToolStream := do
  let eos ← ask backend.eosToken
  let opening ← ask (backend.tokenizeText (texts.committed.head?.getD ""))
  assembleFrom backend eos texts.tail texts.turns texts.committed.tail
    (ToolStream.extend ⟨[], []⟩ opening false)

/-- The token stream a rollout of this conversation would have produced. -/
def stream (example_ : ChatExample) : Except Error ToolStream := do
  let texts ← streamTexts json backend example_
  assemble backend texts

end Retrograd.Dataset
