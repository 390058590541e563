import Retrograd.Agent.Export
import Retrograd.Agent.Transcript
import Retrograd.Agent.WellFormed

/-!
# Which trajectories can be exported

An export is refused by the dataset's checks alone: the rollout's own system turn, prose and
observation texts always read back. What is left is a condition on the conversation
(`Exportable`): every final answer says something, every call is to a tool of the catalog with
an object of arguments, and **every exchange answers each of its calls once**. The rollout does
not enforce it: an environment that is done on the first of several calls leaves the others
unanswered.
-/

namespace Retrograd.Agent

open List Function

open Infer (Token)
open Logic

/-! ### The condition -/

/-- The assistant turns of a conversation, each with the `tool` messages right after it. -/
def exchangesOf : List Message → List (Message × List Message)
  | [] => []
  | message :: rest =>
    if message.role = .assistant then
      (message, rest.takeWhile fun next => next.role = .tool) :: exchangesOf rest
    else exchangesOf rest

/-- An assistant turn, recorded with `prose`, that a record of these tools can hold. -/
structure TurnExportable (names : List String) (message : Message) (observations : List Message)
    (prose : String) : Prop where
  /-- A turn that calls nothing says something, as it was sampled and as it was read. -/
  answer : message.toolCalls = [] → message.content ≠ "" ∧ prose ≠ ""
  calls : ∀ call ∈ message.toolCalls, call.name ∈ names ∧ call.arguments.isObject = true
  /-- Every call comes back once, in some order, and nothing else does. -/
  answered : (observations.map Message.toolCallId).Perm
    (message.toolCalls.map fun call => some call.id)

/-- A trajectory whose conversation a chat record can hold. -/
structure Exportable (scenario : Scenario) (trajectory : Trajectory) (provenance : Provenance) :
    Prop where
  system : scenario.system ≠ some ""
  /-- Besides the scenario's own message, this is about the environment's opening. -/
  users : ∀ message ∈ trajectory.messages, message.role = .user → message.content ≠ ""
  nodup : (provenance.tools.map ToolSpec.name).Nodup
  named : "" ∉ provenance.tools.map ToolSpec.name
  turns : ∀ entry ∈ (exchangesOf trajectory.messages).zip provenance.assistantProse,
    TurnExportable (provenance.tools.map ToolSpec.name) entry.1.1 entry.1.2 entry.2

/-! ### The exchanges of a transcript -/

variable {rendering : ToolRendering}

private theorem exchangesOf_opening {opening rest : List Message}
    (h : ∀ message ∈ opening, message.role ≠ .assistant) :
    exchangesOf (opening ++ rest) = exchangesOf rest := by
  induction opening with
  | nil => rfl
  | cons message opening ih =>
    rw [cons_append, exchangesOf, if_neg (h message mem_cons_self)]
    exact ih fun m hm => h m (mem_cons_of_mem _ hm)

variable {exchanges : List Exchange}

/-- The messages of an exchange. -/
theorem exchangesOf_flatMap (h : ∀ exchange ∈ exchanges, exchange.message.role = .assistant) :
    exchangesOf (exchanges.flatMap (Exchange.messages rendering)) =
      exchanges.map fun exchange => (exchange.message,
        exchange.results.map fun result => observationMessage result rendering) := by
  induction exchanges with
  | nil => rfl
  | cons exchange rest ih =>
    have hrest := ih fun e he => h e (mem_cons_of_mem _ he)
    -- the tool messages of an exchange end where the next assistant turn begins
    have htools : ((exchange.results.map fun result => observationMessage result rendering) ++
        rest.flatMap (Exchange.messages rendering)).takeWhile (fun next => next.role = .tool) =
        exchange.results.map fun result => observationMessage result rendering := by
      rw [takeWhile_append_of_pos]
      · cases rest with
        | nil => simp
        | cons next rest =>
          have hnext : next.message.role = .assistant := h next (by simp)
          simp [Exchange.messages, hnext]
      · intro message hmessage
        obtain ⟨result, -, rfl⟩ := mem_map.mp hmessage
        rfl
    have hskip : exchangesOf ((exchange.results.map fun result =>
        observationMessage result rendering) ++ rest.flatMap (Exchange.messages rendering)) =
        exchangesOf (rest.flatMap (Exchange.messages rendering)) := by
      refine exchangesOf_opening fun message hmessage => ?_
      obtain ⟨result, -, rfl⟩ := mem_map.mp hmessage
      exact fun h => by cases h
    rw [flatMap_cons, Exchange.messages, cons_append, exchangesOf,
      if_pos (h exchange mem_cons_self), htools, hskip, hrest, map_cons]

/-! ### The record of a transcript -/

/-- What came back for a call, as a record has it. -/
def toolRecord (result : ToolResult) : ChatMessage :=
  { ChatMessage.text "tool" result.content with
    toolCallId := some result.callId
    isError := result.isError }

/-- An exchange, as a record has it. -/
def exchangeRecord (form : AssistantForm) (exchange : Exchange) : ChatExchange where
  turn := assistantMessage exchange.message exchange.prose exchange.reasoning form
  answers := exchange.results.map toolRecord
  ids := exchange.results.map ToolResult.callId
  role := rfl
  own := fun call hcall => by
    obtain ⟨_, -, rfl⟩ := List.mem_map.mp hcall
    rfl
  tools := by
    rw [List.forall₂_map_left_iff, List.forall₂_map_right_iff, List.forall₂_same]
    exact fun result _ => ⟨rfl, rfl, rfl⟩

/-- An observation reads back as the tool returned it. -/
private theorem toolMessage_observation (result : ToolResult) :
    toolMessage (observationMessage result rendering) rendering.kind =
      .ok (toolRecord result) := by
  simp [toolMessage, observationMessage, toolRecord, ChatMessage.text]

variable {provenance : Provenance} {form : AssistantForm}

private theorem recordMessages_results {turn : ℕ} {results : List ToolResult}
    {rest : List Message} {records : List ChatMessage}
    (hkind : provenance.rendering = rendering.kind)
    (hrest : recordMessages provenance form turn rest = .ok records) :
    recordMessages provenance form turn
        ((results.map fun result => observationMessage result rendering) ++ rest) =
      .ok (results.map toolRecord ++ records) := by
  induction results with
  | nil => exact hrest
  | cons result results ih =>
    have hmessage : recordMessage provenance form turn (observationMessage result rendering) =
        .ok (toolRecord result) := by
      rw [← @toolMessage_observation rendering result, ← hkind]
      rfl
    rw [map_cons, cons_append, recordMessages, hmessage]
    simp only [bind, Except.bind, observationMessage, reduceCtorEq, if_false] at ih ⊢
    rw [ih]
    rfl

/-- The exchanges from a turn on are written down as they are. -/
private theorem recordMessages_exchanges {exchanges before : List Exchange}
    (hkind : provenance.rendering = rendering.kind)
    (hprose : provenance.assistantProse = (before ++ exchanges).map Exchange.prose)
    (hreasoning : provenance.assistantReasoning = (before ++ exchanges).map Exchange.reasoning)
    (hroles : ∀ exchange ∈ exchanges, exchange.message.role = .assistant) :
    recordMessages provenance form before.length
        (exchanges.flatMap (Exchange.messages rendering)) =
      .ok ((exchanges.map (exchangeRecord form)).flatMap fun exchange =>
        exchange.turn :: exchange.answers) := by
  induction exchanges generalizing before with
  | nil => rfl
  | cons exchange rest ih =>
    have hrole := hroles exchange mem_cons_self
    have hrest := @ih (before ++ [exchange]) (by simpa using hprose) (by simpa using hreasoning)
      fun e he => hroles e (mem_cons_of_mem _ he)
    rw [length_append, length_singleton] at hrest
    have hmessage : recordMessage provenance form before.length exchange.message =
        .ok (assistantMessage exchange.message exchange.prose exchange.reasoning form) := by
      unfold recordMessage
      rw [hrole]
      simp [hprose, hreasoning]
    rw [flatMap_cons, map_cons, flatMap_cons, Exchange.messages, cons_append,
      recordMessages, hmessage, if_pos hrole]
    simp only [bind, Except.bind]
    rw [recordMessages_results hkind hrest]
    rfl

/-! ### The opening of a record -/

/-- The user turns a rollout opens on: the scenario's, and the environment's if it has one. -/
def userMessages (scenario : Scenario) (opening : Except Error (Option String)) : List Message :=
  openingMessages [Message.text .user scenario.user] opening

/-- The system turn is left where the rollout found it. -/
private theorem openingMessages_append {messages users : List Message}
    {opening : Except Error (Option String)} :
    openingMessages (messages ++ users) opening = messages ++ openingMessages users opening := by
  unfold openingMessages
  split
  · rw [append_assoc]
  · rfl

/-- The system turn a rollout opens on, if it opens on one. -/
def systemMessages (scenario : Scenario) (rendering : ToolRendering) : List Message :=
  let messages := match scenario.system with
    | some system => [Message.text .system system]
    | none => []
  match rendering with
  | .prompt instructions _ => injectToolInstructions messages instructions
  | _ => messages

/-- There is one when the scenario or the catalog calls for it. -/
private theorem systemMessages_cases (scenario : Scenario) (rendering : ToolRendering) :
    ((scenario.system.isSome || rendering.kind = .prompt) = false ∧
        systemMessages scenario rendering = []) ∨
      ((scenario.system.isSome || rendering.kind = .prompt) = true ∧
        ∃ first, systemMessages scenario rendering = [first] ∧ first.role = .system) := by
  unfold systemMessages
  cases scenario.system with
  | none =>
    cases rendering with
    | native specs parser => exact .inl ⟨rfl, rfl⟩
    | prompt instructions specs => exact .inr ⟨rfl, _, rfl, rfl⟩
    | none => exact .inl ⟨rfl, rfl⟩
  | some system =>
    cases rendering with
    | native specs parser => exact .inr ⟨rfl, _, rfl, rfl⟩
    | prompt instructions specs => exact .inr ⟨rfl, _, rfl, rfl⟩
    | none => exact .inr ⟨rfl, _, rfl, rfl⟩

variable {σ ε : Type} {out : Outside σ ε} {scenario : Scenario}

/-- The export expects the very system turn the rollout wrote. -/
private theorem expectedSystem_resolved (hresolved : Resolved out rendering) :
    expectedSystem out.encode scenario (rendering.specs.map TemplateTool.ofSpec) rendering.kind =
      .ok (systemMessages scenario rendering) := by
  cases rendering with
  | native specs parser => rfl
  | none => rfl
  | prompt instructions specs =>
    have hinstructions := hresolved instructions specs rfl
    unfold expectedSystem
    dsimp only
    rw [if_pos (show (ToolRendering.prompt instructions specs).kind = .prompt from rfl)]
    change (promptToolInstructions out.encode (specs.map TemplateTool.ofSpec) >>= _) = _
    rw [hinstructions]
    rfl

variable {trajectory : Trajectory}

/-- **The system turn of a rollout always reads back**: past it stand the user turns and the
exchanges. -/
theorem pastSystem_told {opening : Except Error (Option String)}
    (hresolved : Resolved out rendering)
    (h : Told rendering (openingMessages (scenarioMessages scenario rendering) opening) exchanges trajectory provenance) :
    pastSystem out.encode trajectory scenario (provenance.tools.map TemplateTool.ofSpec)
        provenance.rendering =
      .ok (userMessages scenario opening ++ exchanges.flatMap (Exchange.messages rendering)) := by
  have hmessages := h.messages
  have hscenario : scenarioMessages scenario rendering =
      systemMessages scenario rendering ++ [Message.text .user scenario.user] := rfl
  rw [hscenario, openingMessages_append, append_assoc] at hmessages
  unfold pastSystem
  rw [h.kind, h.tools]
  rcases systemMessages_cases scenario rendering with
    ⟨hopened, hsystem⟩ | ⟨hopened, first, hsystem, hrole⟩
  · rw [hsystem, nil_append] at hmessages
    simp only [hopened, Bool.not_false, if_true, hmessages]
    rfl
  · rw [hsystem, singleton_append] at hmessages
    have hcheck : checkSystemTurn out.encode first scenario
        (rendering.specs.map TemplateTool.ofSpec) rendering.kind = .ok () := by
      unfold checkSystemTurn
      rw [expectedSystem_resolved hresolved, hsystem]
      simp [bind, Except.bind]
    simp only [hopened, Bool.not_true, Bool.false_eq_true, if_false, hmessages, hrole, if_true,
      hcheck]
    rfl

/-! ### The checks on a record -/

/-- A turn that is only text is valid when it has some. -/
private theorem text_validate_iff {role content : String} (h : role ∈ ["system", "user"]) :
    (ChatMessage.text role content).validate = .ok () ↔ content ≠ "" := by
  have hrole : role = "system" ∨ role = "user" := by simpa using h
  rcases hrole with rfl | rfl <;>
    by_cases hcontent : content = "" <;>
      simp [ChatMessage.validate, ChatMessage.text, misplacedToolFields, mayBeEmpty, hcontent]

/-- What an assistant turn says in a record of this form. -/
def Exchange.spoken (form : AssistantForm) (exchange : Exchange) : String :=
  match form with
  | .structured => exchange.prose
  | .raw => exchange.message.content

private theorem turn_validate_iff (exchange : Exchange) :
    (exchangeRecord form exchange).turn.validate = .ok () ↔
      (exchange.message.toolCalls = [] → exchange.spoken form ≠ "") := by
  cases form with
  | structured =>
    by_cases hprose : exchange.prose = "" <;> by_cases hcalls : exchange.message.toolCalls = [] <;>
      simp [exchangeRecord, assistantMessage, ChatMessage.validate, misplacedToolFields,
        mayBeEmpty, Exchange.spoken, hprose, hcalls]
  | raw =>
    by_cases hcontent : exchange.message.content = "" <;>
      by_cases hcalls : exchange.message.toolCalls = [] <;>
      simp [exchangeRecord, assistantMessage, ChatMessage.validate, misplacedToolFields,
        mayBeEmpty, Exchange.spoken, hcontent, hcalls]

private theorem toolRecord_validate (result : ToolResult) :
    (toolRecord result).validate = .ok () := by
  simp [toolRecord, ChatMessage.text, ChatMessage.validate, misplacedToolFields, mayBeEmpty]

/-- Turns that are only text pass the walk wherever no call waits. -/
private theorem walks_texts_iff {declared : List String} {noTools : Bool} {C : Prop}
    {texts rest : List ChatMessage} {state : Answering}
    (htexts : ∀ message ∈ texts, message.role ≠ "tool" ∧ message.toolCalls = [])
    (hrest : ∀ state : Answering, state.pending = [] → (Walks declared noTools state rest ↔ C))
    (hstate : state.pending = []) :
    Walks declared noTools state (texts ++ rest) ↔ C := by
  induction texts generalizing state with
  | nil => exact hrest state hstate
  | cons message texts ih =>
    obtain ⟨hrole, hcalls⟩ := htexts message mem_cons_self
    rw [cons_append, walks_text_iff hrole hcalls]
    simp [hstate, ih fun m hm => htexts m (mem_cons_of_mem _ hm)]

/-- An exchange a record of these tools can hold in this form. -/
structure Exchange.Holds (names : List String) (form : AssistantForm) (exchange : Exchange) :
    Prop where
  answer : exchange.message.toolCalls = [] → exchange.spoken form ≠ ""
  calls : ∀ call ∈ exchange.message.toolCalls, call.name ∈ names ∧ call.arguments.isObject = true
  answered : (exchange.results.map fun result => some result.callId).Perm
    (exchange.message.toolCalls.map fun call => some call.id)

private theorem answered_iff {names : List String} (hnamed : "" ∉ names) (exchange : Exchange) :
    (exchangeRecord form exchange).Answered names names.isEmpty ↔
      (∀ call ∈ exchange.message.toolCalls,
        call.name ∈ names ∧ call.arguments.isObject = true) ∧
      (exchange.results.map fun result => some result.callId).Perm
        (exchange.message.toolCalls.map fun call => some call.id) := by
  have hids : ((exchangeRecord form exchange).ids.map some) =
      exchange.results.map fun result => some result.callId := by
    simp [exchangeRecord, comp_def]
  have hown : (exchangeRecord form exchange).turn.toolCalls.map ChatToolCall.id =
      exchange.message.toolCalls.map fun call => some call.id := by
    simp [exchangeRecord, assistantMessage, comp_def]
  constructor
  · rintro ⟨hallowed, hanswers⟩
    rw [hids, hown] at hanswers
    refine ⟨fun call hcall => ?_, hanswers⟩
    have h := hallowed ⟨some call.id, call.name, call.arguments⟩ (mem_map_of_mem hcall)
    exact ⟨h.known, h.object⟩
  · rintro ⟨hcalls, hanswers⟩
    rw [← hids, ← hown] at hanswers
    refine ⟨fun call hcall => ?_, hanswers⟩
    obtain ⟨own, hmem, rfl⟩ := mem_map.mp hcall
    obtain ⟨hknown, hobject⟩ := hcalls own hmem
    refine ⟨fun h => hnamed (h ▸ hknown), hobject, ?_, hknown⟩
    cases names with
    | nil => cases hknown
    | cons name names => rfl

/-! ### The record an export writes -/

/-- The turns a record opens on: the scenario's system turn, then the user turns. -/
def openingRecord (scenario : Scenario) (opening : Except Error (Option String)) :
    List ChatMessage :=
  (match scenario.system with
    | some system => [ChatMessage.text "system" system]
    | none => []) ++
  (userMessages scenario opening).map fun message => ChatMessage.text "user" message.content

/-- The record of a told trajectory. -/
def recordOf (rendering : ToolRendering) (scenario : Scenario)
    (opening : Except Error (Option String)) (exchanges : List Exchange) (form : AssistantForm) :
    ChatExample where
  tools := rendering.specs.map TemplateTool.ofSpec
  messages := openingRecord scenario opening ++
    (exchanges.map (exchangeRecord form)).flatMap fun exchange =>
      exchange.turn :: exchange.answers

private theorem userMessages_role {opening : Except Error (Option String)} {message : Message}
    (h : message ∈ userMessages scenario opening) : message.role = .user := by
  unfold userMessages openingMessages at h
  split at h
  · simp only [singleton_append, mem_cons, not_mem_nil, or_false] at h
    rcases h with rfl | rfl <;> rfl
  · rw [mem_singleton.mp h]
    rfl

private theorem recordMessages_users {users rest : List Message} {records : List ChatMessage}
    {turn : ℕ} (husers : ∀ message ∈ users, message.role = .user)
    (hrest : recordMessages provenance form turn rest = .ok records) :
    recordMessages provenance form turn (users ++ rest) =
      .ok ((users.map fun message => ChatMessage.text "user" message.content) ++ records) := by
  induction users with
  | nil => exact hrest
  | cons message users ih =>
    have hrole := husers message mem_cons_self
    have hmessage : recordMessage provenance form turn message =
        .ok (.text "user" message.content) := by
      unfold recordMessage
      rw [hrole]
      rfl
    rw [cons_append, recordMessages, hmessage, hrole]
    simp only [bind, Except.bind, reduceCtorEq, if_false]
    rw [ih fun m hm => husers m (mem_cons_of_mem _ hm)]
    rfl

/-- An exported record goes out as it is when it validates. -/
private def checked (trajectory : Trajectory) (record : ChatExample) : Except Error ChatExample :=
  match record.validate with
  | .error e => .error (.invalid
      s!"exported trajectory of '{trajectory.scenarioId}' is not a valid record: {e.text}")
  | .ok () => .ok record

private theorem checked_iff {record record' : ChatExample} :
    checked trajectory record = .ok record' ↔ record' = record ∧ record'.validate = .ok () := by
  unfold checked
  constructor
  · intro hok
    split at hok
    · cases hok
    · next hvalid =>
      cases hok
      exact ⟨rfl, hvalid⟩
  · rintro ⟨rfl, hvalid⟩
    rw [hvalid]

/-- **An export is refused by the record's own checks and by nothing else.** -/
theorem toChatExample_told {opening : Except Error (Option String)}
    (hresolved : Resolved out rendering)
    (h : Told rendering (openingMessages (scenarioMessages scenario rendering) opening) exchanges trajectory provenance)
    (record : ChatExample) : toChatExample out.encode trajectory scenario form = .ok record ↔
      record = recordOf rendering scenario opening exchanges form ∧ record.validate = .ok () := by
  have hexchanges := @recordMessages_exchanges rendering provenance form exchanges [] h.kind
    h.prose h.reasoning h.roles
  have hrecords := recordMessages_users
    (fun m (hm : m ∈ userMessages scenario opening) => userMessages_role hm) hexchanges
  unfold toChatExample
  rw [h.recorded]
  dsimp only
  rw [pastSystem_told hresolved h]
  simp only [bind, Except.bind, length_nil] at hrecords ⊢
  rw [hrecords]
  dsimp only
  rw [← append_assoc, h.tools]
  exact @checked_iff trajectory (recordOf rendering scenario opening exchanges form) record

section Checks

variable {scenario : Scenario} {opening : Except Error (Option String)}
  {exchanges : List Exchange}

private theorem openingRecord_texts {message : ChatMessage}
    (h : message ∈ openingRecord scenario opening) :
    message.role ≠ "tool" ∧ message.toolCalls = [] := by
  rcases mem_append.mp h with hsystem | huser
  · split at hsystem
    · rw [mem_singleton.mp hsystem]
      exact ⟨by simp [ChatMessage.text], rfl⟩
    · cases hsystem
  · obtain ⟨_, -, rfl⟩ := mem_map.mp huser
    exact ⟨by simp [ChatMessage.text], rfl⟩

/-- The opening of a record is valid when each of its turns has a text. -/
private theorem openingRecord_validate_iff :
    (∀ message ∈ openingRecord scenario opening, message.validate = .ok ()) ↔
      scenario.system ≠ some "" ∧
        ∀ message ∈ userMessages scenario opening, message.content ≠ "" := by
  rw [openingRecord, forall_mem_append, forall_mem_map]
  refine and_congr ?_ (forall₂_congr fun message _ => text_validate_iff (by simp))
  cases scenario.system with
  | none => simp
  | some system => simp [text_validate_iff]

private theorem exchanges_validate_iff :
    (∀ message ∈ (exchanges.map (exchangeRecord form)).flatMap fun exchange =>
        exchange.turn :: exchange.answers, message.validate = .ok ()) ↔
      ∀ exchange ∈ exchanges, exchange.message.toolCalls = [] → exchange.spoken form ≠ "" := by
  rw [forall_mem_flatMap, forall_mem_map]
  refine forall₂_congr fun exchange _ => ?_
  rw [forall_mem_cons, turn_validate_iff, and_iff_left]
  intro message hmessage
  obtain ⟨result, -, rfl⟩ := mem_map.mp hmessage
  exact toolRecord_validate result

private theorem recordOf_walks_iff {names : List String} (hnamed : "" ∉ names) :
    Walks names names.isEmpty ⟨[], false⟩
        (recordOf rendering scenario opening exchanges form).messages ↔
      ∀ exchange ∈ exchanges, (∀ call ∈ exchange.message.toolCalls,
        call.name ∈ names ∧ call.arguments.isObject = true) ∧
        (exchange.results.map fun result => some result.callId).Perm
          (exchange.message.toolCalls.map fun call => some call.id) := by
  refine walks_texts_iff (fun _ => openingRecord_texts) (fun state hstate => ?_) rfl
  rw [walks_exchanges_iff, forall_mem_map]
  exact ⟨fun h exchange hmem => (answered_iff hnamed exchange).mp (h.2 exchange hmem),
    fun h => ⟨hstate, fun exchange hmem => (answered_iff hnamed exchange).mpr (h exchange hmem)⟩⟩

/-- What the record of a told trajectory has to meet. -/
theorem recordOf_validate_iff :
    (recordOf rendering scenario opening exchanges form).validate = .ok () ↔
      scenario.system ≠ some "" ∧
      (∀ message ∈ userMessages scenario opening, message.content ≠ "") ∧
      (rendering.specs.map ToolSpec.name).Nodup ∧ "" ∉ rendering.specs.map ToolSpec.name ∧
      ∀ exchange ∈ exchanges, exchange.Holds (rendering.specs.map ToolSpec.name) form := by
  have hnames : (rendering.specs.map TemplateTool.ofSpec).map TemplateTool.name =
      rendering.specs.map ToolSpec.name := by
    simp [TemplateTool.ofSpec, comp_def]
  have hempty : (rendering.specs.map TemplateTool.ofSpec).isEmpty =
      (rendering.specs.map ToolSpec.name).isEmpty := by
    cases rendering.specs <;> rfl
  have hsome : (recordOf rendering scenario opening exchanges form).messages ≠ [] := by
    have huser : userMessages scenario opening ≠ [] := by
      unfold userMessages openingMessages
      split <;> simp
    simp [recordOf, openingRecord, huser]
  have hmessages : (∀ message ∈ (recordOf rendering scenario opening exchanges form).messages,
      message.validate = .ok ()) ↔ (scenario.system ≠ some "" ∧
        ∀ message ∈ userMessages scenario opening, message.content ≠ "") ∧
      ∀ exchange ∈ exchanges, exchange.message.toolCalls = [] → exchange.spoken form ≠ "" := by
    rw [← openingRecord_validate_iff, ← exchanges_validate_iff]
    exact forall_mem_append
  have htools : (recordOf rendering scenario opening exchanges form).tools =
      rendering.specs.map TemplateTool.ofSpec := rfl
  rw [validate_ok_iff, validateTools_ok_iff, hmessages, htools, hnames, hempty]
  constructor
  · rintro ⟨-, ⟨⟨hsystem, husers⟩, hanswer⟩, hnodup, hnamed, hwalks⟩
    have hcalls := (recordOf_walks_iff hnamed).mp hwalks
    exact ⟨hsystem, husers, hnodup, hnamed, fun exchange hmem =>
      ⟨hanswer exchange hmem, (hcalls exchange hmem).1, (hcalls exchange hmem).2⟩⟩
  · rintro ⟨hsystem, husers, hnodup, hnamed, hholds⟩
    exact ⟨hsome, ⟨⟨hsystem, husers⟩, fun exchange hmem => (hholds exchange hmem).answer⟩,
      hnodup, hnamed, (recordOf_walks_iff hnamed).mpr fun exchange hmem =>
        ⟨(hholds exchange hmem).calls, (hholds exchange hmem).answered⟩⟩

/-! ### The condition, on the trajectory -/

private theorem opening_role {message : Message}
    (h : message ∈ openingMessages (scenarioMessages scenario rendering) opening) :
    message.role = .system ∨ message ∈ userMessages scenario opening := by
  have hscenario : scenarioMessages scenario rendering =
      systemMessages scenario rendering ++ [Message.text .user scenario.user] := rfl
  rw [hscenario, openingMessages_append] at h
  rcases mem_append.mp h with hsystem | huser
  · rcases systemMessages_cases scenario rendering with ⟨-, hnil⟩ | ⟨-, first, hfirst, hrole⟩
    · rw [hnil] at hsystem
      cases hsystem
    · rw [hfirst] at hsystem
      exact .inl (mem_singleton.mp hsystem ▸ hrole)
  · exact .inr huser

/-- The condition of a told trajectory, on its exchanges. -/
theorem exportable_iff {trajectory : Trajectory}
    (h : Told rendering (openingMessages (scenarioMessages scenario rendering) opening) exchanges
      trajectory provenance) :
    Exportable scenario trajectory provenance ↔
      ∀ form, (recordOf rendering scenario opening exchanges form).validate = .ok () := by
  have husers : (∀ message ∈ trajectory.messages, message.role = .user → message.content ≠ "") ↔
      ∀ message ∈ userMessages scenario opening, message.content ≠ "" := by
    have hscenario : scenarioMessages scenario rendering =
        systemMessages scenario rendering ++ [Message.text .user scenario.user] := rfl
    rw [h.messages]
    constructor
    · intro hall message hmem
      refine hall message (mem_append_left _ ?_) (userMessages_role hmem)
      rw [hscenario, openingMessages_append]
      exact mem_append_right _ hmem
    · intro hall message hmem hrole
      rcases mem_append.mp hmem with hopening | hexchange
      · rcases opening_role hopening with hsystem | huser
        · rw [hrole] at hsystem
          cases hsystem
        · exact hall message huser
      · -- an exchange has no user turn
        obtain ⟨exchange, hin, hmessage⟩ := mem_flatMap.mp hexchange
        rcases mem_cons.mp hmessage with rfl | hresult
        · rw [h.roles exchange hin] at hrole
          cases hrole
        · obtain ⟨_, -, rfl⟩ := mem_map.mp hresult
          cases hrole
  have hturns : (exchangesOf trajectory.messages).zip provenance.assistantProse =
      exchanges.map fun exchange => ((exchange.message,
        exchange.results.map fun result => observationMessage result rendering),
          exchange.prose) := by
    rw [h.messages, exchangesOf_opening, exchangesOf_flatMap h.roles, h.prose,
      zip_map' ]
    intro message hmessage
    rcases opening_role hmessage with hrole | huser
    · simp [hrole]
    · simp [userMessages_role huser]
  have hholds : (∀ entry ∈ (exchangesOf trajectory.messages).zip provenance.assistantProse,
      TurnExportable (provenance.tools.map ToolSpec.name) entry.1.1 entry.1.2 entry.2) ↔
      ∀ exchange ∈ exchanges, ∀ form,
        exchange.Holds (rendering.specs.map ToolSpec.name) form := by
    rw [hturns, h.tools, forall_mem_map]
    refine forall₂_congr fun exchange _ => ⟨fun hturn form => ⟨fun hcalls => ?_, hturn.calls, ?_⟩,
      fun hall => ⟨fun hcalls => ⟨(hall .raw).answer hcalls, (hall .structured).answer hcalls⟩,
        (hall .raw).calls, ?_⟩⟩
    · cases form with
      | structured => exact (hturn.answer hcalls).2
      | raw => exact (hturn.answer hcalls).1
    · simpa [observationMessage, comp_def] using hturn.answered
    · simpa [observationMessage, comp_def] using (hall .raw).answered
  simp only [recordOf_validate_iff]
  constructor
  · rintro ⟨hsystem, hcontents, hnodup, hnamed, hall⟩ form
    rw [h.tools] at hnodup hnamed
    exact ⟨hsystem, husers.mp hcontents, hnodup, hnamed, fun exchange hin =>
      hholds.mp hall exchange hin form⟩
  · intro hall
    obtain ⟨hsystem, hcontents, hnodup, hnamed, -⟩ := hall .raw
    rw [← h.tools] at hnodup hnamed
    exact ⟨hsystem, husers.mpr hcontents, hnodup, hnamed,
      hholds.mpr fun exchange hin form => (hall form).2.2.2.2 exchange hin⟩

end Checks

/-! ### Every returned trajectory -/

/-- **What decides an export.** A trajectory a rollout returned, kept or not, is written as a
valid record in both forms exactly when its conversation is one a record can hold. -/
theorem returned_exports_iff {σ ε : Type} {out : Outside σ ε} {engine : Engine}
    {world world' : World σ ε} {scenario : Scenario} {seeds : List UInt64}
    {results : List (Except Error Trajectory)} {member : ℕ} {trajectory : Trajectory}
    (hserved : Served out engine world)
    (hrollout : rolloutMany out engine scenario seeds world = .ok results world')
    (hresult : results[member]? = some (.ok trajectory)) :
    ∃ provenance, trajectory.provenance = some provenance ∧
      ((∀ form, ∃ record, toChatExample out.encode trajectory scenario form = .ok record ∧
          record.validateTools = .ok ()) ↔
        Exportable scenario trajectory provenance) := by
  obtain ⟨seed, environment, -, horigin⟩ :=
    rolloutMany_trajectory hserved honors_any hrollout hresult
  obtain ⟨rendering, opening, exchanges, provenance, hresolved, htold⟩ := horigin.told
  refine ⟨provenance, htold.recorded, ?_⟩
  rw [exportable_iff htold]
  refine forall_congr' fun form => ⟨?_, fun hvalid => ?_⟩
  · rintro ⟨record, hrecord, -⟩
    obtain ⟨rfl, hvalid⟩ := (toChatExample_told hresolved htold record).mp hrecord
    exact hvalid
  · exact ⟨_, (toChatExample_told hresolved htold _).mpr ⟨rfl, hvalid⟩,
      (validate_ok_iff.mp hvalid).2.2⟩

/-! ### An environment that is done at once -/

/-- A policy that makes some calls in its first turn, against an environment that is done at the
first of them. -/
def doneAtOnce (calls : List ToolCall) : Outside Unit Unit where
  create := fun policy => (.ok (), policy)
  tools := fun _ => .ok [⟨"search", "looks things up", .object []⟩]
  reset := fun environment _ => (.ok none, environment)
  step := fun environment call => (.ok ⟨⟨call.id, "found", false⟩, some 1, true⟩, environment)
  supportsNativeTools := fun policy => (.ok true, policy)
  toolCallParser := fun _ policy => (.ok (some fun _ => ⟨"", "", calls, []⟩), policy)
  renderChatFraming := fun messages _ policy =>
    let turns := messages.filter fun message => message.role = .assistant
    (.ok ⟨⟨turns.map fun _ => ⟨"user", none⟩, "user"⟩, [1, 2]⟩, policy)
  generateShared := fun _ requests policy =>
    (.ok (requests.map fun _ => ⟨[3, 4], "calls", true, []⟩), policy)
  generateContinuous := fun requests policy =>
    (.ok (requests.map fun _ => ⟨[3, 4], "calls", true, []⟩), policy)
  noteToolWait := fun _ policy => (.ok (), policy)
  scoreMaskedBatch := fun requests policy =>
    (.ok (requests.map fun request => (request.2.filter id).map fun _ => 0), policy)
  sequenceCapacity := 4
  late := fun policy => (false, policy)
  encode := fun _ => .ok "catalog"

def searchCall (id : String) : ToolCall := ⟨id, "search", .object []⟩

def searchEngine : Engine where
  limits := ⟨4, 16, 64, 0, true, 0⟩
  fallbackParser := fun text => ⟨text, "", [], []⟩
  hasEnvironments := true

def searchScenario : Scenario := ⟨"lookup", none, "find it", none⟩

/-- The one trajectory of a rollout of one member, when collection keeps it. -/
def keptOf {σ ε : Type}
    (result : EStateM.Result Error (World σ ε) (List (Except Error Trajectory))) :
    Option (Trajectory × Provenance) :=
  match result with
  | .ok [.ok trajectory] _ => trajectory.provenance.bind fun provenance =>
    if trajectory.truncated = false ∧ provenance.invalidTurns = 0 then
      some (trajectory, provenance)
    else none
  | _ => none

theorem keptOf_eq_some
    {result : EStateM.Result Error (World σ ε) (List (Except Error Trajectory))}
    (h : keptOf result = some (trajectory, provenance)) :
    ∃ world', result = .ok [.ok trajectory] world' ∧ trajectory.provenance = some provenance ∧
      trajectory.truncated = false ∧ provenance.invalidTurns = 0 := by
  unfold keptOf at h
  split at h
  · next world' =>
    obtain ⟨_, hprovenance, h⟩ := Option.bind_eq_some_iff.mp h
    split at h
    · next hkept =>
      cases h
      exact ⟨world', rfl, hprovenance, hkept⟩
    · cases h
  · cases h

/-- Whether a trajectory is written as a valid record in a form. -/
def exports (encode : Json → Except String String) (trajectory : Trajectory) (scenario : Scenario)
    (form : AssistantForm) : Bool :=
  match toChatExample encode trajectory scenario form with
  | .ok record => match record.validateTools with
    | .ok () => true
    | .error _ => false
  | .error _ => false

theorem exports_iff {encode : Json → Except String String} :
    exports encode trajectory scenario form = true ↔
      ∃ record, toChatExample encode trajectory scenario form = .ok record ∧
        record.validateTools = .ok () := by
  unfold exports
  cases toChatExample encode trajectory scenario form with
  | error e => simp
  | ok record => cases hvalid : record.validateTools <;> simp [hvalid]

/-- A turn that made one call before its environment was done is exported. -/
theorem oneCall_exportable : ∃ trajectory provenance,
    keptOf (rolloutMany (doneAtOnce [searchCall "a"]) searchEngine searchScenario [7]
      ⟨(), [], []⟩) = some (trajectory, provenance) ∧
    Exportable searchScenario trajectory provenance := by
  have hkept : (keptOf (rolloutMany (doneAtOnce [searchCall "a"]) searchEngine searchScenario [7]
      ⟨(), [], []⟩)).any (fun kept =>
        exports (doneAtOnce []).encode kept.1 searchScenario .structured &&
          exports (doneAtOnce []).encode kept.1 searchScenario .raw) = true := by
    decide +kernel
  obtain ⟨⟨trajectory, provenance⟩, hrun, hexports⟩ := (Option.any_eq_true _ _).mp hkept
  obtain ⟨world', hresult, hprovenance, -, -⟩ := keptOf_eq_some hrun
  have hfirst : ([.ok trajectory] : List (Except Error Trajectory))[0]? = some (.ok trajectory) :=
    rfl
  obtain ⟨provenance', hprovenance', hiff⟩ :=
    returned_exports_iff (.fresh ⟨(), [], []⟩ rfl) hresult hfirst
  obtain rfl : provenance = provenance' := Option.some.inj (hprovenance.symm.trans hprovenance')
  rw [Bool.and_eq_true] at hexports
  refine ⟨trajectory, provenance, hrun, hiff.mp fun form => exports_iff.mp ?_⟩
  cases form with
  | structured => exact hexports.1
  | raw => exact hexports.2

/-- With a second call in the turn, the trajectory is kept and cannot be exported: its record
would leave that call unanswered. -/
theorem twoCalls_unexportable :
    ¬∀ (σ ε : Type) (out : Outside σ ε) (engine : Engine) (world world' : World σ ε)
      (scenario : Scenario) (seeds : List UInt64) (results : List (Except Error Trajectory))
      (member : ℕ) (trajectory : Trajectory) (provenance : Provenance),
      Served out engine world →
      rolloutMany out engine scenario seeds world = .ok results world' →
      results[member]? = some (.ok trajectory) → trajectory.provenance = some provenance →
      trajectory.truncated = false → provenance.invalidTurns = 0 →
      ∀ form, ∃ record, toChatExample out.encode trajectory scenario form = .ok record ∧
        record.validateTools = .ok () := by
  intro hall
  have hkept : (keptOf (rolloutMany (doneAtOnce [searchCall "a", searchCall "b"]) searchEngine
      searchScenario [7] ⟨(), [], []⟩)).any (fun kept =>
        !exports (doneAtOnce []).encode kept.1 searchScenario .raw) = true := by
    decide +kernel
  obtain ⟨⟨trajectory, provenance⟩, hrun, hexports⟩ := (Option.any_eq_true _ _).mp hkept
  obtain ⟨world', hresult, hprovenance, htruncated, hinvalid⟩ := keptOf_eq_some hrun
  have hexported := hall Unit Unit _ searchEngine _ world' searchScenario [7] _ 0 trajectory
    provenance (.fresh ⟨(), [], []⟩ rfl) hresult rfl hprovenance htruncated hinvalid .raw
  have : exports (doneAtOnce []).encode trajectory searchScenario .raw = true :=
    exports_iff.mpr hexported
  simp [this] at hexports

end Retrograd.Agent
