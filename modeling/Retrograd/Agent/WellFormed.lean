import Retrograd.Agent.Record
import Retrograd.Logic.Except
import Mathlib.Data.List.Perm.Basic

/-!
# What a valid record is

The dataset's checks, each with the condition it decides. The walk over the messages is a fold
over a queue of unanswered calls; over a conversation that comes in exchanges, an assistant turn
and the `tool` messages right after it, it accepts exactly when **every exchange answers its
own calls**, each once and in any order (`walks_exchanges_iff`).
-/

namespace Retrograd.Agent

open Logic List Option

/-! ### The catalog -/

theorem declareTools_ok_iff {declared names : List String} {tools : List TemplateTool}
    (hnodup : declared.Nodup) :
    declareTools declared tools = .ok names ↔
      names = declared ++ tools.map TemplateTool.name ∧
        (declared ++ tools.map TemplateTool.name).Nodup ∧
        "" ∉ tools.map TemplateTool.name := by
  induction tools generalizing declared with
  | nil => simp [declareTools, hnodup, eq_comm]
  | cons tool rest ih =>
    rw [declareTools]
    by_cases hempty : tool.name.isEmpty = true
    · rw [if_pos hempty]
      have hname : tool.name = "" := String.isEmpty_iff.mp hempty
      simp [hname]
    · have hname : tool.name ≠ "" := fun h => hempty (String.isEmpty_iff.mpr h)
      rw [if_neg hempty]
      by_cases hmem : tool.name ∈ declared
      · rw [if_pos hmem]
        have hdup : ¬(declared ++ (tool :: rest).map TemplateTool.name).Nodup := fun h =>
          (nodup_append.mp h).2.2 _ hmem _ mem_cons_self rfl
        simp only [hdup, false_and, and_false, reduceCtorEq]
      · rw [if_neg hmem]
        have hnext : (declared ++ [tool.name]).Nodup :=
          nodup_append.mpr ⟨hnodup, nodup_singleton _, fun a ha b hb h => by
            rw [mem_singleton.mp hb] at h
            exact hmem (h ▸ ha)⟩
        rw [ih hnext]
        simp [hname.symm]

/-! ### The calls of one turn -/

/-- A call the catalog knows, with arguments that make an object. -/
structure CallAllowed (declared : List String) (noTools : Bool) (call : ChatToolCall) : Prop where
  named : call.name ≠ ""
  object : call.arguments.isObject = true
  tools : noTools = false
  known : call.name ∈ declared

/-- The entries the calls of a turn wait under. -/
def waiting (index : ℕ) (calls : List ChatToolCall) : List (String × String) :=
  (calls.zipIdx index).map fun entry => (entry.1.resolvedId entry.2, entry.1.name)

theorem pendCalls_ok_iff {declared : List String} {noTools : Bool} {index : ℕ}
    {calls : List ChatToolCall} {pending pending' : List (String × String)} :
    pendCalls declared noTools index calls pending = .ok pending' ↔
      (∀ call ∈ calls, CallAllowed declared noTools call) ∧
        pending' = pending ++ waiting index calls := by
  induction calls generalizing index pending with
  | nil => simp [pendCalls, waiting, eq_comm]
  | cons call rest ih =>
    rw [pendCalls]
    by_cases hallowed : CallAllowed declared noTools call
    · have hname : ¬call.name.isEmpty = true := fun h =>
        hallowed.named (String.isEmpty_iff.mp h)
      rw [if_neg hname, if_neg (by simp [hallowed.object]), if_neg (by simp [hallowed.tools]),
        if_neg (not_not.mpr hallowed.known), ih]
      simp [hallowed, waiting]
    · -- the first of the four checks that fails refuses the call
      have hno : ¬∀ c ∈ call :: rest, CallAllowed declared noTools c := fun h =>
        hallowed (h call mem_cons_self)
      simp only [hno, false_and, iff_false]
      split_ifs with hname hobject htools hknown
      · simp
      · simp
      · simp
      · refine absurd ⟨fun h => hname (String.isEmpty_iff.mpr h), by simpa using hobject,
          by simpa using htools, hknown⟩ hallowed
      · simp

/-- A call with an id of its own waits under it. -/
theorem waiting_map_fst {index : ℕ} {calls : List ChatToolCall}
    (h : ∀ call ∈ calls, call.id.isSome) :
    ((waiting index calls).map Prod.fst).map some = calls.map ChatToolCall.id := by
  induction calls generalizing index with
  | nil => rfl
  | cons call rest ih =>
    obtain ⟨id, hid⟩ := isSome_iff_exists.mp (h call mem_cons_self)
    have hrest := @ih (index + 1) fun c hc => h c (mem_cons_of_mem _ hc)
    simp only [waiting, zipIdx_cons, map_cons, ChatToolCall.resolvedId, hid,
      getD_some] at hrest ⊢
    rw [hrest]

/-! ### The walk -/

variable {declared : List String} {noTools : Bool}

/-- The walk gets through some messages and leaves no call waiting. -/
def Walks (declared : List String) (noTools : Bool) (state : Answering)
    (messages : List ChatMessage) : Prop :=
  ∃ state', messages.foldlM (walkMessage declared noTools) state = .ok state' ∧
    state'.pending = []

variable {state : Answering}

theorem walks_nil_iff : Walks declared noTools state [] ↔ state.pending = [] :=
  ⟨fun ⟨_, h, hnil⟩ => by cases h; exact hnil, fun h => ⟨state, rfl, h⟩⟩

variable {message : ChatMessage}

theorem walks_cons_iff {rest : List ChatMessage} : Walks declared noTools state (message :: rest) ↔
      ∃ mid, walkMessage declared noTools state message = .ok mid ∧
        Walks declared noTools mid rest := by
  constructor
  · rintro ⟨state', h, hnil⟩
    rw [foldlM_cons] at h
    obtain ⟨mid, hmid, h⟩ := ok_of_bind h
    exact ⟨mid, hmid, state', h, hnil⟩
  · rintro ⟨mid, hmid, state', h, hnil⟩
    refine ⟨state', ?_, hnil⟩
    rw [foldlM_cons, hmid]
    exact h

/-- A message that is only text passes when no call waits. -/
theorem walks_text_iff {rest : List ChatMessage} (hrole : message.role ≠ "tool")
    (hcalls : message.toolCalls = []) : Walks declared noTools state (message :: rest) ↔
      state.pending = [] ∧ Walks declared noTools ⟨[], false⟩ rest := by
  rw [walks_cons_iff]
  unfold walkMessage
  rw [if_neg hrole]
  cases hpending : state.pending with
  | cons entry pending => simp
  | nil => simp [hcalls, pendCalls, bind, Except.bind]

/-- A `tool` message that answers by id takes the first call that waits under it. -/
theorem walkMessage_tool {id : String} (hrole : message.role = "tool")
    (hname : message.name = none) (hid : message.toolCallId = some id)
    (hanswering : state.answering = true) : walkMessage declared noTools state message =
      match state.pending.findIdx? fun entry => entry.1 = id with
      | some position => .ok { state with pending := state.pending.eraseIdx position }
      | none => .error (.unknownCallId id) := by
  unfold walkMessage answerCall answeredPosition
  rw [if_pos hrole, if_neg (by simp [hanswering]), hid, hname]
  dsimp only
  cases state.pending.findIdx? fun entry => entry.1 = id with
  | none => rfl
  | some position =>
    cases hget : state.pending[position]? <;> simp [bind, Except.bind, hget]

/-- Taking out the first entry under an id, on the ids alone. -/
private theorem eraseIdx_findIdx? {pending : List (String × String)} {id : String} {position : ℕ}
    (h : (pending.findIdx? fun entry => entry.1 = id) = some position) :
    id ∈ pending.map Prod.fst ∧
      (pending.eraseIdx position).map Prod.fst = (pending.map Prod.fst).erase id := by
  induction pending generalizing position with
  | nil => simp at h
  | cons entry rest ih =>
    rw [findIdx?_cons] at h
    by_cases hentry : entry.1 = id
    · simp only [hentry, decide_true, if_true, some.injEq] at h
      subst h
      simp [hentry]
    · simp only [hentry, decide_false, Bool.false_eq_true, if_false, map_eq_some_iff] at h
      obtain ⟨before, hbefore, rfl⟩ := h
      obtain ⟨hmem, herase⟩ := ih hbefore
      refine ⟨mem_cons_of_mem _ hmem, ?_⟩
      rw [map_cons, erase_cons_tail (by simpa using hentry), ← herase]
      rfl

/-- The `tool` messages after a turn are accepted, and clear the queue, exactly when they answer
the calls that wait, each once. -/
theorem walks_answers_iff {tools : List ChatMessage} {ids : List String}
    (hclear : state.answering = false → state.pending = [])
    (htools : Forall₂ (fun (message : ChatMessage) (id : String) => message.role = "tool" ∧ message.name = none ∧ message.toolCallId = some id) tools ids) :
    Walks declared noTools state tools ↔ ids.Perm (state.pending.map Prod.fst) := by
  induction htools generalizing state with
  | nil => simp [walks_nil_iff, nil_perm]
  | @cons message id _ _ hmessage _ ih =>
    obtain ⟨hrole, hname, hid⟩ := hmessage
    rw [walks_cons_iff]
    cases hanswering : state.answering with
    | false => simp [walkMessage, answerCall, hrole, hanswering, hclear hanswering]
    | true =>
      rw [walkMessage_tool hrole hname hid hanswering, cons_perm_iff_perm_erase]
      cases hfind : state.pending.findIdx? fun entry => entry.1 = id with
      | some position =>
        obtain ⟨hmem, herase⟩ := eraseIdx_findIdx? hfind
        rw [← herase]
        simp [hmem, ih, hanswering]
      | none =>
        have hmem : id ∉ state.pending.map Prod.fst := fun hmem => by
          obtain ⟨entry, hentry, rfl⟩ := List.mem_map.mp hmem
          simpa using findIdx?_eq_none_iff.mp hfind entry hentry
        simp [hmem]

/-! ### Exchanges -/

/-- An assistant turn and the `tool` messages that came back for it, as a rollout's record has
them: every call has an id, and every answer names one. -/
structure ChatExchange where
  turn : ChatMessage
  answers : List ChatMessage
  ids : List String
  role : turn.role = "assistant"
  own : ∀ call ∈ turn.toolCalls, call.id.isSome
  tools : List.Forall₂ (fun (message : ChatMessage) (id : String) => message.role = "tool" ∧
    message.name = none ∧ message.toolCallId = some id) answers ids

/-- The exchange answers its own calls, and none but its own. -/
structure ChatExchange.Answered (declared : List String) (noTools : Bool)
    (exchange : ChatExchange) : Prop where
  allowed : ∀ call ∈ exchange.turn.toolCalls, CallAllowed declared noTools call
  answers : (exchange.ids.map some).Perm (exchange.turn.toolCalls.map ChatToolCall.id)

/-- The walk up to the end of some `tool` messages, and on from there. -/
private theorem walks_append_iff {l r : List ChatMessage} {C : Prop}
    (hrest : ∀ mid, Walks declared noTools mid r ↔ mid.pending = [] ∧ C) :
    Walks declared noTools state (l ++ r) ↔ Walks declared noTools state l ∧ C := by
  induction l generalizing state with
  | nil => rw [nil_append, hrest, walks_nil_iff]
  | cons message l ih =>
    rw [cons_append, walks_cons_iff, walks_cons_iff]
    simp only [ih]
    exact ⟨fun ⟨mid, h, hmid, hC⟩ => ⟨⟨mid, h, hmid⟩, hC⟩,
      fun ⟨⟨mid, h, hmid⟩, hC⟩ => ⟨mid, h, hmid, hC⟩⟩

/-- One exchange is accepted exactly when no call waits before it and it answers its own. -/
theorem walks_exchange_iff (exchange : ChatExchange) :
    Walks declared noTools state (exchange.turn :: exchange.answers) ↔
      state.pending = [] ∧ exchange.Answered declared noTools := by
  have hnottool : ¬exchange.turn.role = "tool" := by simp [exchange.role]
  rw [walks_cons_iff, walkMessage, if_neg hnottool]
  cases hpending : state.pending with
  | cons entry rest => simp
  | nil =>
    have hclear : (decide (exchange.turn.role = "assistant") &&
        !exchange.turn.toolCalls.isEmpty) = false → waiting 0 exchange.turn.toolCalls = [] := by
      intro h
      simp only [exchange.role, decide_true, Bool.true_and, Bool.not_eq_false',
        List.isEmpty_iff] at h
      rw [h]
      rfl
    have hids : (exchange.ids.Perm ((waiting 0 exchange.turn.toolCalls).map Prod.fst)) ↔
        (exchange.ids.map some).Perm (exchange.turn.toolCalls.map ChatToolCall.id) := by
      rw [← @waiting_map_fst 0 _ exchange.own, map_perm_map_iff (some_injective _)]
    constructor
    · rintro ⟨mid, hmid, hwalks⟩
      obtain ⟨pending, hpend, hmid⟩ := ok_of_bind hmid
      obtain ⟨hallowed, rfl⟩ := pendCalls_ok_iff.mp hpend
      cases hmid
      exact ⟨rfl, hallowed, hids.mp ((walks_answers_iff hclear exchange.tools).mp hwalks)⟩
    · rintro ⟨-, hallowed, hanswers⟩
      refine ⟨⟨waiting 0 exchange.turn.toolCalls, _⟩, ?_,
        (walks_answers_iff hclear exchange.tools).mpr (hids.mpr hanswers)⟩
      have hpend : pendCalls declared noTools 0 exchange.turn.toolCalls [] =
          .ok (waiting 0 exchange.turn.toolCalls) := pendCalls_ok_iff.mpr ⟨hallowed, rfl⟩
      dsimp only
      rw [hpend]
      rfl

/-- **The walk over a conversation in exchanges** accepts it exactly when every exchange answers
its own calls. -/
theorem walks_exchanges_iff (exchanges : List ChatExchange) : Walks declared noTools state
        (exchanges.flatMap fun exchange => exchange.turn :: exchange.answers) ↔
      state.pending = [] ∧ ∀ exchange ∈ exchanges, exchange.Answered declared noTools := by
  induction exchanges generalizing state with
  | nil => simp [walks_nil_iff]
  | cons exchange rest ih =>
    rw [flatMap_cons, walks_append_iff fun mid => ih, walks_exchange_iff,
      forall_mem_cons, and_assoc]

/-! ### The whole record -/

/-- What `validate` decides. -/
theorem validateTools_ok_iff {record : ChatExample} :
    record.validateTools = .ok () ↔
      (record.tools.map TemplateTool.name).Nodup ∧ "" ∉ record.tools.map TemplateTool.name ∧
        Walks (record.tools.map TemplateTool.name) record.tools.isEmpty ⟨[], false⟩
          record.messages := by
  unfold ChatExample.validateTools
  constructor
  · intro h
    obtain ⟨names, hnames, h⟩ := ok_of_bind h
    obtain ⟨rfl, hnodup, hempty⟩ := (declareTools_ok_iff nodup_nil).mp hnames
    obtain ⟨state', hwalk, h⟩ := ok_of_bind h
    refine ⟨hnodup, hempty, state', hwalk, ?_⟩
    split at h
    · cases h
    · assumption
  · rintro ⟨hnodup, hempty, state', hwalk, hnil⟩
    have hnames : declareTools [] record.tools = .ok (record.tools.map TemplateTool.name) :=
      (declareTools_ok_iff nodup_nil).mpr ⟨rfl, hnodup, hempty⟩
    rw [hnames]
    simp only [bind, Except.bind, hwalk, hnil]

theorem validate_ok_iff {record : ChatExample} :
    record.validate = .ok () ↔ record.messages ≠ [] ∧
      (∀ message ∈ record.messages, message.validate = .ok ()) ∧
        record.validateTools = .ok () := by
  unfold ChatExample.validate
  cases hmessages : record.messages with
  | nil => simp
  | cons message rest =>
    rw [if_neg (by simp), ← forM_ok_iff]
    cases hall : (message :: rest).forM ChatMessage.validate with
    | error e => simp [bind, Except.bind]
    | ok _ => simp [bind, Except.bind]

end Retrograd.Agent
