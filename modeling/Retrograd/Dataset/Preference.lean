import Retrograd.Dataset.ToolStream

/-!
# Preference pairs

One prompt and two responses to it, prepared as two sequences that should share the prompt token
for token. A record with tools is the pair of streams a rollout would have produced; any other
record is rendered through the template whole, and each response is masked by the **difference**
between the conversation up to an assistant turn and the prompt that opens it.
-/

namespace Retrograd.Dataset

open Logic Agent
open Infer (Token)

/-! ### Records -/

/-- Whether a record goes through the tool path. -/
def isToolRecord (record : ChatExample) : Bool :=
  !record.tools.isEmpty || record.messages.any fun message =>
    message.role = "tool" || !message.toolCalls.isEmpty || message.raw
      || message.reasoningContent.isSome

/-- `ChatExample::as_pairs`. -/
def asPairs (record : ChatExample) : List (String × String) :=
  record.messages.map fun message => (message.role, message.content)

/-- The role of the last message that is not a system one, walked over the messages: the first
of two in a row that should alternate. -/
def repeatedRole (tools : Bool) : Option String → List ChatMessage → Option String
  | _, [] => none
  | previous, message :: rest =>
    if message.role = "system" then repeatedRole tools previous rest
    else if (!tools || message.role = "assistant") && previous = some message.role then
      some message.role
    else repeatedRole tools (some message.role) rest

/-- Turns implausible turn order into a message. -/
def implausibleAlternation (record : ChatExample) : Option String :=
  (repeatedRole (isToolRecord record) none record.messages).map fun role =>
    s!"messages should alternate between user and assistant; found two consecutive '{role}' turns"

/-- Which response of a pair. -/
inductive Side where
  | chosen
  | rejected
  deriving DecidableEq

def Side.asStr : Side → String
  | chosen => "chosen"
  | rejected => "rejected"

/-- One prompt and two responses to it. -/
structure PreferenceExample where
  tools : List TemplateTool
  prompt : List ChatMessage
  chosen : List ChatMessage
  rejected : List ChatMessage

/-- Why a record that parsed is still not a preference pair. -/
inductive PreferenceExampleError where
  | promptMustEndWithUser
  | responseMustStartWithAssistant (side : Side)
  | misplacedSystem
  | conversation (side : Side) (source : ChatExampleError)
  | turnOrder (side : Side) (message : String)
  | identicalResponses

def PreferenceExampleError.text : PreferenceExampleError → String
  | promptMustEndWithUser =>
    "prompt must not be empty and must end on a user turn, or on the tool observations " ++
      "that answer a call: the responses are what the model says next"
  | responseMustStartWithAssistant side =>
    s!"{side.asStr} must not be empty and must start with an assistant turn"
  | misplacedSystem => "a system message may only open the prompt"
  | conversation side source => s!"prompt + {side.asStr}: {source.text}"
  | turnOrder side message => s!"prompt + {side.asStr}: {message}"
  | identicalResponses => "chosen and rejected are the same response: the pair prefers nothing"

/-- Equality of two calls. -/
def sameCall (a b : ChatToolCall) : Bool :=
  a.id == b.id && a.name == b.name && a.arguments.beq b.arguments

/-- Equality of two messages. -/
def sameMessage (a b : ChatMessage) : Bool :=
  a.role == b.role && a.content == b.content && a.toolCalls.length == b.toolCalls.length
    && (a.toolCalls.zip b.toolCalls).all (fun (x, y) => sameCall x y)
    && a.toolCallId == b.toolCallId && a.name == b.name && a.isError == b.isError
    && a.raw == b.raw && a.reasoningContent == b.reasoningContent

namespace PreferenceExample

def side (record : PreferenceExample) : Side → List ChatMessage
  | .chosen => record.chosen
  | .rejected => record.rejected

/-- The whole conversation of one side. -/
def conversation (record : PreferenceExample) (side : Side) : ChatExample where
  tools := record.tools
  messages := record.prompt ++ record.side side

/-- Decided for the record, so the two sides always share a rendering. -/
def isToolRecord (record : PreferenceExample) : Bool :=
  [Side.chosen, .rejected].any fun side => Dataset.isToolRecord (record.conversation side)

/-- The checks on one response. -/
def validateSide (record : PreferenceExample) (side : Side) :
    Except PreferenceExampleError Unit :=
  if (record.side side).head?.all fun message => message.role ≠ "assistant" then
    .error (.responseMustStartWithAssistant side)
  else
    match (record.conversation side).validate with
    | .error source => .error (.conversation side source)
    | .ok () =>
      match implausibleAlternation (record.conversation side) with
      | some message => .error (.turnOrder side message)
      | none => .ok ()

def validate (record : PreferenceExample) : Except PreferenceExampleError Unit := do
  if record.prompt.getLast?.all fun message => message.role ∉ ["user", "tool"] then
    .error .promptMustEndWithUser
  else if (record.prompt.dropWhile (fun message => message.role = "system")
      ++ record.chosen ++ record.rejected).any fun message => message.role = "system" then
    .error .misplacedSystem
  else do
    record.validateSide .chosen
    record.validateSide .rejected
    if record.chosen.length == record.rejected.length
        && (record.chosen.zip record.rejected).all fun (a, b) => sameMessage a b then
      .error .identicalResponses
    else .ok ()

end PreferenceExample

/-! ### Prepared pairs -/

/-- One response of a prepared pair: the whole sequence, and which of its tokens are trained. -/
structure PreparedSequence where
  tokens : List Token
  trainMask : List Bool

def PreparedSequence.trainedTokens (sequence : PreparedSequence) : ℕ :=
  sequence.trainMask.count true

/-- A pair ready for the objective. -/
structure PreparedPair where
  promptLen : ℕ
  chosen : PreparedSequence
  rejected : PreparedSequence

def PreparedPair.side (pair : PreparedPair) : Side → PreparedSequence
  | .chosen => pair.chosen
  | .rejected => pair.rejected

def prefixNotPreserved : Error := .tokenize
  "model chat template does not preserve the prompt prefix required for preference pairs"

variable (json : JsonText) (backend : DatasetBackend)

/-! ### The plain path -/

/-- The tokens of a conversation rendered through the template. -/
def renderTokens (messages : List (String × String)) (addAssistant : Bool) :
    Except Error (List Token) := do
  let text ← ask (backend.formatChat messages addAssistant)
  ask (backend.tokenizeText text)

/-- The token positions each assistant turn at or after `index` writes: from the prompt that
opens it to the conversation up to it. `none` when a rendering is not a token prefix of the
whole. -/
def assistantLabelSpans (messages : List (String × String)) (fullTokens : List Token) :
    ℕ → List (String × String) → Except Error (Option (List (ℕ × ℕ)))
  | _, [] => .ok (some [])
  | index, (role, _) :: rest =>
    if role ≠ "assistant" then assistantLabelSpans messages fullTokens (index + 1) rest
    else do
      let opening ← renderTokens backend (messages.take index) true
      let upto ← renderTokens backend (messages.take (index + 1)) false
      if !(opening.isPrefixOf fullTokens && upto.isPrefixOf fullTokens) then .ok none
      else do
        let spans ← assistantLabelSpans messages fullTokens (index + 1) rest
        .ok (spans.map fun spans => (opening.length, upto.length) :: spans)

/-- Marks the targets of the spans, the first token excepted. -/
def maskSpans (length : ℕ) (spans : List (ℕ × ℕ)) : List Bool :=
  (spans.flatMap fun (start, stop) => List.range' start (stop - start)).foldl
    (fun mask target => if 0 < target && target < mask.length then mask.set target true else mask)
    (List.replicate length false)

/-- One response of a plain record. -/
def plainSide (record : PreferenceExample) (shared : List Token) (side : Side) :
    Except Error PreparedSequence := do
  let messages := asPairs (record.conversation side)
  let tokens ← renderTokens backend messages false
  if !shared.isPrefixOf tokens then .error prefixNotPreserved
  else do
    let spans ← assistantLabelSpans backend messages tokens record.prompt.length
      (messages.drop record.prompt.length)
    match spans with
    | none => .error prefixNotPreserved
    | some spans => .ok ⟨tokens, maskSpans tokens.length spans⟩

/-- The prompt rendered as a generation prompt is the shared prefix. -/
def plainSides (record : PreferenceExample) :
    Except Error (ℕ × PreparedSequence × PreparedSequence) := do
  let shared ← renderTokens backend
    (record.prompt.map fun message => (message.role, message.content)) true
  let chosen ← plainSide backend record shared .chosen
  let rejected ← plainSide backend record shared .rejected
  .ok (shared.length, chosen, rejected)

/-! ### The tool path -/

/-- Where the runs of trained tokens start. -/
def runStarts (mask : List Bool) : List ℕ :=
  (List.range' 1 (mask.length - 1)).filter fun index =>
    mask[index]?.getD false && !(mask[index - 1]?.getD false)

def assistantTurns (messages : List ChatMessage) : ℕ :=
  messages.countP fun message => message.role = "assistant"

/-- One response of a tool record: the stream of its conversation, trained from the first turn of
the response on. -/
def toolSide (record : PreferenceExample) (side : Side) :
    Except Error (ℕ × PreparedSequence) := do
  let conversation := record.conversation side
  let stream ← stream json backend conversation
  let starts := runStarts stream.trainMask
  if starts.length ≠ assistantTurns conversation.messages then .error prefixNotPreserved
  else
    let start := starts[assistantTurns record.prompt]?.getD 0
    .ok (start, ⟨stream.tokens,
      List.replicate start false ++ stream.trainMask.drop start⟩)

/-- The streams up to the first turn of the response are the shared prefix. -/
def toolSides (record : PreferenceExample) :
    Except Error (ℕ × PreparedSequence × PreparedSequence) := do
  let (chosenStart, chosen) ← toolSide json backend record .chosen
  let (rejectedStart, rejected) ← toolSide json backend record .rejected
  if chosenStart ≠ rejectedStart
      || chosen.tokens.take chosenStart ≠ rejected.tokens.take rejectedStart then
    .error prefixNotPreserved
  else .ok (chosenStart, chosen, rejected)

/-! ### Preparation -/

/-- The checks on a prepared response. -/
def checkSide (nCtx promptLen : ℕ) (side : Side) (sequence : PreparedSequence) :
    Except Error Unit :=
  if nCtx < sequence.tokens.length then
    .error (.invalid (s!"formatted {side.asStr} conversation has {sequence.tokens.length} " ++
      s!"tokens, exceeding ctx={nCtx}"))
  else if promptLen = 0 || sequence.trainedTokens = 0 then
    .error (.tokenize s!"the {side.asStr} response produced no trainable tokens")
  else .ok ()

/-- Tokenizes and masks both responses of a record. -/
def prepare (record : PreferenceExample) (nCtx : ℕ) : Except Error PreparedPair := do
  record.validate.mapError fun error => Error.invalid error.text
  let (promptLen, chosen, rejected) ←
    if record.isToolRecord then toolSides json backend record else plainSides backend record
  checkSide nCtx promptLen .chosen chosen
  checkSide nCtx promptLen .rejected rejected
  .ok ⟨promptLen, chosen, rejected⟩

end Retrograd.Dataset
