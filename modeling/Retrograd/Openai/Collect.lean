import Retrograd.Infer.Request

/-!
# Collecting a buffered answer

The stream of a request carries one completion per index, in any interleaving. Collecting it does not
know how many completions there are: it **infers** the choices from the events it sees, and a choice
that is first heard of through the end of a completion has no entry to write to.
-/

namespace Retrograd.Openai

open Infer List Option

/-! ### The collection -/

/-- Why a collection fails; `panic` ends the process, and no error is returned. -/
inductive CollectError where
  | infer (error : InferError)
  | internal (message : String)
  | panic (message : String)

/-- The log-probabilities of one sampled token. -/
structure SampledLogprob where
  piece : Bytes
  logprob : F32
  top : List TopLogprob

/-- What reading one request's event stream produced, per choice. -/
structure Collected where
  text : Bytes := []
  /-- Token events seen. -/
  tokens : ℕ := 0
  /-- Whether the completion stopped on the end of generation or a stop string. -/
  stopped : Bool := false
  logprobs : List SampledLogprob := []
  wantsLogprobs : Bool := false
  /-- Tokens that grew the reasoning block of the partial parse. -/
  reasoningTokens : ℕ := 0
  reasoningSeen : ℕ := 0
  cachedTokens : ℕ := 0

/-- The choices and how they ended, by index. -/
structure Gathering where
  choices : List (Option Collected) := []
  ended : List (Option FinishReason) := []

/-- Pushes `fill` until there are `length` entries. -/
def growTo {α : Type} (l : List α) (length : ℕ) (fill : α) : List α :=
  l ++ List.replicate (length - l.length) fill

/-- The entry of the log-probabilities a token adds: special tokens have no piece, and none. -/
def logprobsOf (token : TokenEvent) : List SampledLogprob :=
  match token.sampledLogprob with
  | some logprob => if token.piece.isEmpty then [] else [⟨token.piece, logprob, token.topLogprobs⟩]
  | none => []

/-- A token, added to its choice. `reader` is the length of the reasoning block of a partial parse. -/
def Collected.addToken (reader : Option (Bytes → ℕ)) (token : TokenEvent) (choice : Collected) :
    Collected :=
  let text := choice.text ++ token.text
  let (reasoningTokens, reasoningSeen) :=
    match reader with
    | none => (choice.reasoningTokens, choice.reasoningSeen)
    | some reader =>
      if choice.reasoningSeen < reader text then (choice.reasoningTokens + 1, reader text)
      else (choice.reasoningTokens, choice.reasoningSeen)
  { choice with
    text
    tokens := choice.tokens + 1
    logprobs := choice.logprobs ++ logprobsOf token
    wantsLogprobs := choice.wantsLogprobs || token.sampledLogprob.isSome
    reasoningTokens
    reasoningSeen }

/-- One event. -/
def gatherEvent (reader : Option (Bytes → ℕ)) (gathering : Gathering) :
    Event → Except CollectError Gathering
  | .token token =>
    let length := token.index + 1
    let choices := growTo gathering.choices length
      (some { wantsLogprobs := token.sampledLogprob.isSome })
    let ended := gathering.ended ++
      List.replicate (length - gathering.choices.length) none
    match choices[token.index]?.join with
    | none => .error (.panic "resized just above")
    | some choice => .ok ⟨choices.set token.index (some (choice.addToken reader token)), ended⟩
  | .done index reason text cachedTokens =>
    let choices := gathering.choices ++ List.replicate (index + 1 - gathering.ended.length) none
    let ended := growTo gathering.ended (index + 1) none
    let choices := choices.modify index fun choice =>
      choice.map fun choice => { choice with text := choice.text ++ text, cachedTokens }
    .ok ⟨choices, ended.set index (some reason)⟩
  | .error error => .error (.infer error)

/-- The events of the stream, until it closes. -/
def gather (reader : Option (Bytes → ℕ)) : Gathering → List Event → Except CollectError Gathering
  | gathering, [] => .ok gathering
  | gathering, event :: events => do
    let gathering ← gatherEvent reader gathering event
    gather reader gathering events

def stoppedBefore : CollectError :=
  .internal "the serving thread stopped before the request ended"

/-- One choice of a closed stream. -/
def finishChoice (ended : Option FinishReason) : Option Collected → Except CollectError Collected
  | none => .error stoppedBefore
  | some choice =>
    match ended with
    | some .cancelled =>
      .error (.internal "the request was cancelled while it waited for the device")
    | some reason =>
      .ok { choice with stopped := decide (reason = .eog) || decide (reason = .stop) }
    | none => .error stoppedBefore

/-- Drains one request's stream, gathering every completion it hears of, in index order. -/
def collect (reader : Option (Bytes → ℕ)) (events : List Event) :
    Except CollectError (List Collected) := do
  let gathering ← gather reader {} events
  let out ← gathering.choices.zipIdx.mapM fun (choice, index) =>
    finishChoice gathering.ended[index]?.join choice
  if out.isEmpty then .error stoppedBefore else .ok out

/-! ### What a stream says of a choice -/

/-- The choice an event is about. -/
def eventIndex : Event → Option ℕ
  | .token token => some token.index
  | .done index _ _ _ => some index
  | .error _ => none

def isToken : Event → Bool
  | .token _ => true
  | _ => false

def isError : Event → Bool
  | .error _ => true
  | _ => false

/-- Whether an event is about choice `i` or a later one. -/
def reaches (i : ℕ) (event : Event) : Bool := (eventIndex event).any (i ≤ ·)

/-- Whether the first event about choice `i` or a later one is a token. -/
def opened (events : List Event) (i : ℕ) : Bool := (events.find? (reaches i)).any isToken

/-- Whether any event is about choice `i` or a later one. -/
def heard (events : List Event) (i : ℕ) : Bool := events.any (reaches i)

/-- The texts of choice `i`, one after another. -/
def textOf (events : List Event) (i : ℕ) : Bytes :=
  events.flatMap fun
    | .token token => if token.index = i then token.text else []
    | .done index _ text _ => if index = i then text else []
    | .error _ => []

def tokensOf (events : List Event) (i : ℕ) : ℕ :=
  events.countP fun event => isToken event && eventIndex event == some i

/-- The log-probabilities of the tokens of choice `i`. -/
def listedOf (events : List Event) (i : ℕ) : List SampledLogprob :=
  events.flatMap fun
    | .token token => if token.index = i then logprobsOf token else []
    | _ => []

/-- How choice `i` ended, and the prompt tokens that were cached. -/
def endOf (events : List Event) (i : ℕ) : Option (FinishReason × ℕ) :=
  (events.filterMap fun
    | .done index reason _ cachedTokens => if index = i then some (reason, cachedTokens) else none
    | _ => none).getLast?

/-- Whether choice `i` ended with a reason other than being cancelled. -/
def endedWell (events : List Event) (i : ℕ) : Bool :=
  (endOf events i).any fun entry => entry.1 != .cancelled

/-- What an entry of the answer holds: the choice's own texts, tokens and log-probabilities, and the
cached tokens its end reported. -/
structure Holds (events : List Event) (i : ℕ) (choice : Collected) : Prop where
  text : choice.text = textOf events i
  tokens : choice.tokens = tokensOf events i
  logprobs : choice.logprobs = listedOf events i
  cachedTokens : choice.cachedTokens = ((endOf events i).map Prod.snd).getD 0

/-! ### One event more -/

variable {reader : Option (Bytes → ℕ)} {events seen : List Event} {i : ℕ}

theorem heard_snoc (event : Event) : heard (seen ++ [event]) i = (heard seen i || reaches i event) := by
  simp [heard]

/-- What opens a choice is the first event about it or a later one. -/
theorem opened_snoc (event : Event) : opened (seen ++ [event]) i =
    if heard seen i then opened seen i else reaches i event && isToken event := by
  unfold opened heard
  rw [find?_append]
  cases hfind : seen.find? (reaches i) with
  | some found =>
    have hany : seen.any (reaches i) = true :=
      List.any_eq_true.mpr ⟨found, mem_of_find?_eq_some hfind, find?_some hfind⟩
    rw [if_pos hany]
    rfl
  | none =>
    have hany : ¬ seen.any (reaches i) = true := by
      simpa [find?_eq_none] using hfind
    rw [if_neg hany, none_or, find?_singleton]
    cases reaches i event <;> rfl

theorem textOf_snoc (event : Event) : textOf (seen ++ [event]) i = textOf seen i ++
    match event with
    | .token token => if token.index = i then token.text else []
    | .done index _ text _ => if index = i then text else []
    | .error _ => [] := by
  cases event <;> simp [textOf]

theorem tokensOf_snoc (event : Event) : tokensOf (seen ++ [event]) i =
    tokensOf seen i + if isToken event && eventIndex event == some i then 1 else 0 := by
  rw [tokensOf, countP_append, countP_singleton]
  rfl

theorem listedOf_snoc (event : Event) : listedOf (seen ++ [event]) i = listedOf seen i ++
    match event with
    | .token token => if token.index = i then logprobsOf token else []
    | _ => [] := by
  cases event <;> simp [listedOf]

theorem endOf_snoc (event : Event) : endOf (seen ++ [event]) i =
    match event with
    | .done index reason _ cachedTokens =>
      if index = i then some (reason, cachedTokens) else endOf seen i
    | _ => endOf seen i := by
  cases event with
  | token token => simp [endOf]
  | error error => simp [endOf]
  | done index reason text cachedTokens =>
    by_cases hindex : index = i
    · simp [endOf, hindex]
    · simp [endOf, hindex]

theorem eventIndex_ne_of_unheard (h : heard seen i = false) {event : Event} (hevent : event ∈ seen) :
    eventIndex event ≠ some i := by
  intro hindex
  have hreach : reaches i event = true := by simp [reaches, hindex]
  exact absurd (List.any_eq_true.mpr ⟨event, hevent, hreach⟩) (by rw [← heard, h]; simp)

theorem endOf_of_unheard (h : heard seen i = false) : endOf seen i = none := by
  rw [endOf, getLast?_eq_none_iff, filterMap_eq_nil_iff]
  intro event hevent
  have hne := eventIndex_ne_of_unheard h hevent
  cases event with
  | token token => rfl
  | done index reason text cachedTokens => exact if_neg fun heq => hne (congrArg some heq)
  | error error => rfl

/-- A choice nothing has been heard of holds nothing. -/
theorem holds_of_unheard (h : heard seen i = false) (wants : Bool) :
    Holds seen i { wantsLogprobs := wants } := by
  have hother (event : Event) (hevent : event ∈ seen) : eventIndex event ≠ some i :=
    eventIndex_ne_of_unheard h hevent
  have htext : textOf seen i = [] := by
    refine flatMap_eq_nil_iff.mpr fun event hevent => ?_
    have hne := hother event hevent
    cases event with
    | token token => exact if_neg fun heq => hne (congrArg some heq)
    | done index reason text cachedTokens => exact if_neg fun heq => hne (congrArg some heq)
    | error error => rfl
  have htokens : tokensOf seen i = 0 := by
    refine countP_eq_zero.mpr fun event hevent => ?_
    simp [hother event hevent]
  have hlisted : listedOf seen i = [] := by
    refine flatMap_eq_nil_iff.mpr fun event hevent => ?_
    have hne := hother event hevent
    cases event with
    | token token => exact if_neg fun heq => hne (congrArg some heq)
    | done index reason text cachedTokens => rfl
    | error error => rfl
  exact ⟨htext.symm, htokens.symm, hlisted.symm, by rw [endOf_of_unheard h]; rfl⟩

/-! ### What the collection knows -/

theorem getElem?_growTo {α : Type} (l : List α) (length : ℕ) (fill : α) (j : ℕ) :
    (growTo l length fill)[j]? =
      if j < l.length then l[j]? else if j < length then some fill else none := by
  rw [growTo]
  by_cases hj : j < l.length
  · rw [if_pos hj, getElem?_append_left hj]
  · rw [if_neg hj, getElem?_append_right (not_lt.mp hj), getElem?_replicate]
    congr 1
    simp only [eq_iff_iff]
    omega

/-- The collection's state after the events `seen`: the choices heard of, each with an entry when a
token opened it. -/
structure Gathered (seen : List Event) (gathering : Gathering) : Prop where
  length : gathering.choices.length = gathering.ended.length
  heard (i : ℕ) : i < gathering.choices.length ↔ heard seen i = true
  opened (i : ℕ) (entry : Option Collected) (h : gathering.choices[i]? = some entry) :
    entry.isSome = opened seen i
  holds (i : ℕ) (choice : Collected) (h : gathering.choices[i]? = some (some choice)) :
    Holds seen i choice
  ended (i : ℕ) : gathering.ended[i]?.join = (endOf seen i).map Prod.fst

theorem Gathered.start : Gathered [] {} where
  length := rfl
  heard i := by simp [Openai.heard]
  opened i entry h := by cases h
  holds i choice h := by cases h
  ended i := rfl

theorem reaches_token (token : TokenEvent) : reaches i (.token token) = decide (i ≤ token.index) := rfl

theorem reaches_done (index : ℕ) (reason : FinishReason) (text : Bytes) (cached : ℕ) :
    reaches i (.done index reason text cached) = decide (i ≤ index) := rfl

theorem length_growTo {α : Type} (l : List α) (length : ℕ) (fill : α) :
    (growTo l length fill).length = max l.length length := by
  rw [growTo, length_append, length_replicate]
  omega

variable {choice : Collected}

/-- An entry that was there keeps what it holds when an event about another choice arrives. -/
theorem Holds.of_other (h : Holds seen i choice) {event : Event}
    (hother : eventIndex event ≠ some i) : Holds (seen ++ [event]) i choice := by
  have htokens : tokensOf (seen ++ [event]) i = tokensOf seen i := by
    rw [tokensOf_snoc]
    simp [hother]
  cases event with
  | token token =>
    have hne : token.index ≠ i := fun heq => hother (congrArg some heq)
    refine ⟨?_, h.tokens.trans htokens.symm, ?_, ?_⟩
    · rw [textOf_snoc, h.text]
      simp [hne]
    · rw [listedOf_snoc, h.logprobs]
      simp [hne]
    · rw [endOf_snoc, h.cachedTokens]
  | done index reason text cachedTokens =>
    have hne : index ≠ i := fun heq => hother (congrArg some heq)
    refine ⟨?_, h.tokens.trans htokens.symm, ?_, ?_⟩
    · rw [textOf_snoc, h.text]
      simp [hne]
    · rw [listedOf_snoc, h.logprobs]
      simp
    · rw [endOf_snoc, h.cachedTokens]
      simp [hne]
  | error error =>
    refine ⟨?_, h.tokens.trans htokens.symm, ?_, ?_⟩
    · rw [textOf_snoc, h.text]
      simp
    · rw [listedOf_snoc, h.logprobs]
      simp
    · rw [endOf_snoc, h.cachedTokens]

theorem Holds.addToken (reader : Option (Bytes → ℕ)) {token : TokenEvent}
    (h : Holds seen token.index choice) :
    Holds (seen ++ [.token token]) token.index (choice.addToken reader token) := by
  refine ⟨?_, ?_, ?_, ?_⟩
  · rw [textOf_snoc, ← h.text]
    simp [Collected.addToken]
  · rw [tokensOf_snoc, ← h.tokens]
    simp [Collected.addToken, isToken, eventIndex]
  · rw [listedOf_snoc, ← h.logprobs]
    simp [Collected.addToken]
  · rw [endOf_snoc, ← h.cachedTokens]
    simp [Collected.addToken]

theorem Holds.finish {index : ℕ} (h : Holds seen index choice) (reason : FinishReason)
    (text : Bytes) (cachedTokens : ℕ) : Holds (seen ++ [.done index reason text cachedTokens]) index
      { choice with text := choice.text ++ text, cachedTokens } := by
  refine ⟨?_, ?_, ?_, ?_⟩
  · rw [textOf_snoc, ← h.text]
    simp
  · rw [tokensOf_snoc, ← h.tokens]
    simp [isToken]
  · rw [listedOf_snoc, ← h.logprobs]
    simp
  · rw [endOf_snoc]
    simp

/-- More entries that hold nothing change nothing. -/
private theorem join_growTo_none {α : Type} (l : List (Option α)) (length j : ℕ) :
    (growTo l length none)[j]?.join = l[j]?.join := by
  rw [getElem?_growTo]
  split_ifs with hlt hgrown
  · rfl
  · rw [getElem?_eq_none (not_lt.mp hlt)]
    rfl
  · rw [getElem?_eq_none (not_lt.mp hlt)]

variable {gathering : Gathering}

theorem Gathered.heard_iff (h : Gathered seen gathering) (i : ℕ) :
    Openai.heard seen i = false ↔ gathering.choices.length ≤ i := by
  rw [← not_lt, h.heard i, Bool.not_eq_true]

/-- A token of a choice that is unheard of, or has an entry, is added to it. -/
theorem Gathered.token (h : Gathered seen gathering) (reader : Option (Bytes → ℕ))
    {token : TokenEvent}
    (hopen : Openai.heard seen token.index = true → Openai.opened seen token.index = true) :
    ∃ next, gatherEvent reader gathering (.token token) = .ok next ∧
      Gathered (seen ++ [.token token]) next := by
  have hopened : Openai.opened (seen ++ [.token token]) token.index = true := by
    rw [opened_snoc]
    split_ifs with hheard
    · exact hopen hheard
    · simp [reaches_token, isToken]
  have hgrown (j : ℕ) := getElem?_growTo gathering.choices (token.index + 1)
    (some { wantsLogprobs := token.sampledLogprob.isSome }) j
  obtain ⟨choice, hchoice, hholds⟩ : ∃ choice, (growTo gathering.choices (token.index + 1)
      (some { wantsLogprobs := token.sampledLogprob.isSome }))[token.index]? = some (some choice) ∧
      Holds seen token.index choice := by
    rw [hgrown token.index]
    by_cases hlt : token.index < gathering.choices.length
    · rw [if_pos hlt, getElem?_eq_getElem hlt]
      have hsome := h.opened token.index _ (getElem?_eq_getElem hlt)
      rw [hopen ((h.heard _).mp hlt)] at hsome
      obtain ⟨choice, hchoice⟩ := isSome_iff_exists.mp hsome
      rw [hchoice]
      exact ⟨choice, rfl, h.holds token.index choice (hchoice ▸ getElem?_eq_getElem hlt)⟩
    · rw [if_neg hlt, if_pos (Nat.lt_succ_self _)]
      exact ⟨_, rfl, holds_of_unheard ((h.heard_iff _).mpr (not_lt.mp hlt)) _⟩
  refine ⟨_, by rw [gatherEvent, hchoice]; rfl, ?_⟩
  have hother (j : ℕ) (hj : token.index ≠ j) : eventIndex (.token token) ≠ some j :=
    fun heq => hj (some.inj heq)
  refine ⟨?_, fun j => ?_, fun j entry hentry => ?_, fun j entry hentry => ?_, fun j => ?_⟩
  · simp only [length_set, length_growTo, length_append, length_replicate]
    have := h.length
    omega
  · rw [length_set, length_growTo, heard_snoc, reaches_token, Bool.or_eq_true, ← h.heard j,
      decide_eq_true_iff]
    omega
  · rw [getElem?_set] at hentry
    split_ifs at hentry with hj hlt
    · obtain rfl := some.inj hentry
      rw [← hj, hopened]
      rfl
    · rw [hgrown j] at hentry
      rw [opened_snoc]
      by_cases hlt : j < gathering.choices.length
      · rw [if_pos hlt] at hentry
        rw [if_pos ((h.heard j).mp hlt)]
        exact h.opened j entry hentry
      · rw [if_neg hlt] at hentry
        have hheard := (h.heard_iff j).mpr (not_lt.mp hlt)
        split_ifs at hentry with hnew
        obtain rfl := some.inj hentry
        rw [if_neg (by simp [hheard]), reaches_token, isToken, decide_eq_true (by omega)]
        rfl
  · rw [getElem?_set] at hentry
    split_ifs at hentry with hj hlt
    · obtain rfl := some.inj (some.inj hentry)
      exact hj ▸ hholds.addToken reader
    · rw [hgrown j] at hentry
      split_ifs at hentry with hlt hnew
      · exact (h.holds j entry hentry).of_other (hother j hj)
      · obtain rfl := some.inj (some.inj hentry)
        exact (holds_of_unheard ((h.heard_iff j).mpr (not_lt.mp hlt)) _).of_other (hother j hj)
  · rw [endOf_snoc, ← h.ended j]
    have hended : gathering.ended ++ List.replicate (token.index + 1 - gathering.choices.length) none =
        growTo gathering.ended (token.index + 1) none := by
      rw [growTo, h.length]
    change (gathering.ended ++ _)[j]?.join = _
    rw [hended, join_growTo_none]

/-- The end of a choice is noted, and added to its entry if it has one. -/
theorem Gathered.done (h : Gathered seen gathering) (reader : Option (Bytes → ℕ)) (index : ℕ)
    (reason : FinishReason) (text : Bytes) (cachedTokens : ℕ) :
    ∃ next, gatherEvent reader gathering (.done index reason text cachedTokens) = .ok next ∧
      Gathered (seen ++ [.done index reason text cachedTokens]) next := by
  refine ⟨_, rfl, ?_⟩
  have hchoices : gathering.choices ++ List.replicate (index + 1 - gathering.ended.length) none =
      growTo gathering.choices (index + 1) none := by
    rw [growTo, h.length]
  have hgrown (j : ℕ) := getElem?_growTo gathering.choices (index + 1) none j
  have hother (j : ℕ) (hj : index ≠ j) :
      eventIndex (.done index reason text cachedTokens) ≠ some j :=
    fun heq => hj (some.inj heq)
  rw [hchoices]
  refine ⟨?_, fun j => ?_, fun j entry hentry => ?_, fun j entry hentry => ?_, fun j => ?_⟩
  · simp only [length_modify, length_set, length_growTo, h.length]
  · rw [length_modify, length_growTo, heard_snoc, reaches_done, Bool.or_eq_true, ← h.heard j,
      decide_eq_true_iff]
    omega
  · rw [getElem?_modify] at hentry
    obtain ⟨before, hbefore, rfl⟩ := map_eq_some_iff.mp hentry
    have hsome : before.isSome = Openai.opened (seen ++ [.done index reason text cachedTokens]) j := by
      rw [hgrown j] at hbefore
      rw [opened_snoc]
      by_cases hlt : j < gathering.choices.length
      · rw [if_pos hlt] at hbefore
        rw [if_pos ((h.heard j).mp hlt)]
        exact h.opened j before hbefore
      · rw [if_neg hlt] at hbefore
        have hheard := (h.heard_iff j).mpr (not_lt.mp hlt)
        split_ifs at hbefore with hnew
        obtain rfl := some.inj hbefore
        rw [if_neg (by simp [hheard])]
        exact (Bool.and_false _).symm
    rw [← hsome]
    split_ifs
    · exact isSome_map
    · rfl
  · rw [getElem?_modify] at hentry
    obtain ⟨before, hbefore, hafter⟩ := map_eq_some_iff.mp hentry
    rw [hgrown j] at hbefore
    by_cases hj : index = j
    · rw [if_pos hj] at hafter
      obtain ⟨choice, rfl, rfl⟩ := map_eq_some_iff.mp hafter
      subst hj
      split_ifs at hbefore with hlt hnew
      · exact (h.holds index choice hbefore).finish reason text cachedTokens
      · cases some.inj hbefore
    · rw [if_neg hj] at hafter
      subst hafter
      split_ifs at hbefore with hlt hnew
      · exact (h.holds j entry hbefore).of_other (hother j hj)
      · cases some.inj hbefore
  · rw [endOf_snoc, getElem?_set]
    dsimp only
    split_ifs with hj hlt
    · rfl
    · rw [length_growTo] at hlt
      omega
    · rw [join_growTo_none, h.ended j]

end Retrograd.Openai
