import Retrograd.Dataset.Preference
import Retrograd.Logic.Except
import Mathlib.Data.List.Perm.Subperm

/-!
# What a prepared pair shares and what it trains

A prepared pair agrees on its prompt and trains inside the assistant turns of the responses. On
the tool path no token of the prompt is trained: the runs of the train mask are exactly the
assistant turns, and training starts at the first run of the response. On the plain path a turn
is the difference of two renderings, and a template whose **later** generation prompt is shorter
than the prompt makes that difference reach back into it.
-/

namespace Retrograd.Dataset

open Logic Agent List Option
open Infer (Token)

variable {json : JsonText} {backend : DatasetBackend}

/-! ### The turns of a stream -/

/-- One assistant turn of a stream: what was sampled, the token that closes it, and the framing
before the next turn. -/
structure StreamTurn where
  sampled : List Token
  closer : Token
  framing : List Token

/-- The tokens of the turn itself. -/
def StreamTurn.tokens (turn : StreamTurn) : List Token := turn.sampled ++ [turn.closer]

/-- Where each turn stands in a stream that is `start` tokens long before the first. -/
def turnSpans : ℕ → List StreamTurn → List (ℕ × ℕ)
  | _, [] => []
  | start, turn :: rest =>
    (start, start + turn.tokens.length) ::
      turnSpans (start + turn.tokens.length + turn.framing.length) rest

/-- The mask that is true over the turns alone. -/
def turnMask (turns : List StreamTurn) : List Bool :=
  turns.flatMap fun turn =>
    List.replicate turn.tokens.length true ++ List.replicate turn.framing.length false

/-- The turns of a stream, tokenized as it is assembled. -/
def streamTurns (backend : DatasetBackend) (eos : Token) (tail : String) :
    List String → List String → Except Error (List StreamTurn)
  | [], _ => .ok []
  | text :: turns, committed => do
    let sampled ← ask (backend.tokenizeFragment text)
    let next ← ask (backend.tokenizeFragment (committed.head?.getD tail))
    let (closer, framing) ← closeTurn backend eos next
    let rest ← streamTurns backend eos tail turns committed.tail
    .ok (⟨sampled, closer, if turns.isEmpty then [] else framing⟩ :: rest)

/-- The token ranges the assistant turns of a tool record write in its stream, the token that
closes a turn included. -/
def assistantSpans (json : JsonText) (backend : DatasetBackend) (record : ChatExample) :
    Except Error (List (ℕ × ℕ)) := do
  let texts ← streamTexts json backend record
  let eos ← ask backend.eosToken
  let opening ← ask (backend.tokenizeText (texts.committed.head?.getD ""))
  let turns ← streamTurns backend eos texts.tail texts.turns texts.committed.tail
  .ok (turnSpans opening.length turns)

/-- The stream is its opening and its turns, and its mask marks the turns. -/
theorem assembleFrom_turns {eos : Token} {tail : String} :
    ∀ {turns committed : List String} {before after : ToolStream},
      assembleFrom backend eos tail turns committed before = .ok after →
      ∃ pieces, streamTurns backend eos tail turns committed = .ok pieces ∧
        pieces.length = turns.length ∧ after.trainMask = before.trainMask ++ turnMask pieces := by
  intro turns
  induction turns with
  | nil =>
    intro committed before after h
    cases h
    exact ⟨[], rfl, rfl, by simp [turnMask]⟩
  | cons text turns ih =>
    intro committed before after h
    rw [assembleFrom] at h
    obtain ⟨sampled, hsampled, h⟩ := ok_of_bind h
    obtain ⟨next, hnext, h⟩ := ok_of_bind h
    obtain ⟨⟨closer, framing⟩, hclose, h⟩ := ok_of_bind h
    obtain ⟨pieces, hpieces, hlen, hmask⟩ := ih h
    refine ⟨⟨sampled, closer, if turns.isEmpty then [] else framing⟩ :: pieces, ?_, by simp [hlen],
      ?_⟩
    · rw [streamTurns, hsampled]
      show (ask _ >>= _) = _
      rw [hnext]
      show (closeTurn _ _ _ >>= _) = _
      rw [hclose]
      show (streamTurns _ _ _ _ _ >>= _) = _
      rw [hpieces]
      rfl
    · rw [hmask, turnMask, turnMask, flatMap_cons]
      cases turns with
      | nil => simp [ToolStream.extend, StreamTurn.tokens, replicate_succ', append_assoc]
      | cons _ _ => simp [ToolStream.extend, StreamTurn.tokens, replicate_succ',
          append_assoc]

/-! ### Runs and turns -/

variable {turns : List StreamTurn} {start i : ℕ}

/-- Turns follow one another. -/
theorem turnSpans_sorted (turns : List StreamTurn) : ∀ start,
    (turnSpans start turns).Pairwise (fun a b => a.2 ≤ b.1) ∧
      ∀ span ∈ turnSpans start turns, start ≤ span.1 ∧ span.1 < span.2 := by
  induction turns with
  | nil => intro start; exact ⟨.nil, by simp [turnSpans]⟩
  | cons turn turns ih =>
    intro start
    obtain ⟨hsorted, hbounds⟩ := ih (start + turn.tokens.length + turn.framing.length)
    have hpos : 0 < turn.tokens.length := by simp [StreamTurn.tokens]
    refine ⟨pairwise_cons.mpr ⟨fun span hspan => ?_, hsorted⟩, fun span hspan => ?_⟩
    · have := (hbounds span hspan).1
      show start + turn.tokens.length ≤ span.1
      omega
    · rcases mem_cons.mp hspan with rfl | hspan
      · exact ⟨le_rfl, by show start < start + turn.tokens.length; omega⟩
      · have := hbounds span hspan
        omega

theorem turnSpans_length (turns : List StreamTurn) : ∀ start,
    (turnSpans start turns).length = turns.length := by
  induction turns with
  | nil => intro start; rfl
  | cons turn turns ih => intro start; simp [turnSpans, ih]

/-- A token is marked when it lies in a turn. -/
theorem mask_iff (turns : List StreamTurn) : ∀ start i,
    (List.replicate start false ++ turnMask turns)[i]? = some true ↔
      ∃ span ∈ turnSpans start turns, span.1 ≤ i ∧ i < span.2 := by
  induction turns with
  | nil =>
    intro start i
    simp [turnSpans, turnMask, getElem?_replicate]
  | cons turn turns ih =>
    intro start i
    rw [turnMask, flatMap_cons, turnSpans]
    have hlater := ih (start + turn.tokens.length + turn.framing.length) i
    rw [turnMask] at hlater
    simp only [mem_cons, exists_eq_or_imp]
    by_cases hbefore : i < start + turn.tokens.length + turn.framing.length
    · have hnone : ¬ ∃ span ∈ turnSpans (start + turn.tokens.length + turn.framing.length) turns,
          span.1 ≤ i ∧ i < span.2 := by
        rintro ⟨span, hspan, hle, -⟩
        have := ((turnSpans_sorted turns _).2 span hspan).1
        omega
      rw [or_iff_left hnone]
      grind
    · have hthis : ¬ (start ≤ i ∧ i < start + turn.tokens.length) := by omega
      rw [or_iff_right hthis, ← hlater, ← append_assoc,
        getElem?_append_right (by simp; omega), getElem?_append_right (by simp; omega)]
      simp [Nat.add_assoc]

/-- The runs of the mask start where turns do, so when there are as many of them as turns they
are the turns. -/
theorem runStarts_eq (hlen : (runStarts (List.replicate start false ++ turnMask turns)).length
    = turns.length) :
    runStarts (List.replicate start false ++ turnMask turns) = (turnSpans start turns).map Prod.fst := by
  obtain ⟨hsorted, hbounds⟩ := turnSpans_sorted turns start
  have hmask := mask_iff turns start
  obtain ⟨mask, hmaskEq⟩ : ∃ mask, mask = List.replicate start false ++ turnMask turns := ⟨_, rfl⟩
  rw [← hmaskEq] at hlen hmask ⊢
  have hstarts : ((turnSpans start turns).map Prod.fst).Pairwise (· < ·) := by
    rw [pairwise_map]
    refine hsorted.imp_of_mem fun {a b} ha hb hab => ?_
    exact (hbounds a ha).2.trans_le hab
  have hruns : (runStarts mask).Pairwise (· < ·) :=
    List.Pairwise.filter _ pairwise_lt_range'
  have hsubset : runStarts mask ⊆ (turnSpans start turns).map Prod.fst := by
    intro index hindex
    simp only [runStarts, mem_filter, mem_range'_1, Bool.and_eq_true,
      Bool.not_eq_true'] at hindex
    obtain ⟨⟨hpos, -⟩, hhere, hbefore⟩ := hindex
    have htrue : mask[index]? = some true := by
      cases h : mask[index]? <;> simp_all
    obtain ⟨span, hspan, hle, hlt⟩ := (hmask index).mp htrue
    refine List.mem_map.mpr ⟨span, hspan, ?_⟩
    -- a token further inside the turn is not the first of its run
    by_contra hne
    have hprevious : mask[index - 1]? = some true :=
      (hmask (index - 1)).mpr ⟨span, hspan, by omega, by omega⟩
    rw [hprevious] at hbefore
    cases hbefore
  have hperm : (runStarts mask).Perm ((turnSpans start turns).map Prod.fst) := by
    have hnodup : (runStarts mask).Nodup := hruns.imp Nat.ne_of_lt
    refine (subperm_of_subset hnodup hsubset).perm_of_length_le ?_
    rw [hlen, length_map, turnSpans_length]
  exact hperm.eq_of_pairwise (fun a b _ _ hab hba => absurd hab (Nat.lt_asymm hba)) hruns hstarts

/-! ### How many turns a stream has -/

theorem templateMessage_role {rendering : Rendering} {message : ChatMessage}
    {answer : Option String} {rendered : TemplateMessage}
    (h : templateMessage json backend rendering message answer = .ok rendered) :
    rendered.role = message.role := by
  unfold templateMessage at h
  split at h
  · next hrole =>
    cases answer with
    | none => cases h
    | some id => cases h; exact hrole.symm
  · cases h
    rfl

/-- The number of assistant turns among the messages the template is handed. -/
def templateTurns (messages : List TemplateMessage) : ℕ :=
  messages.countP fun message => message.role = "assistant"

theorem injectInstructions_turns (messages : List TemplateMessage) (instructions : String) :
    templateTurns (injectInstructions messages instructions) = templateTurns messages := by
  rw [injectInstructions]
  split
  · have hroles : ∀ (messages : List TemplateMessage) (i : ℕ),
        (messages.modify i fun message =>
          { message with content := message.content ++ "\n\n" ++ instructions }).map
            TemplateMessage.role = messages.map TemplateMessage.role := by
      intro messages
      induction messages with
      | nil => intro i; cases i <;> rfl
      | cons message messages ih =>
        intro i
        cases i with
        | zero => rfl
        | succ i => simp [ih]
    have hcount : ∀ messages : List TemplateMessage, templateTurns messages =
        (messages.map TemplateMessage.role).countP (· = "assistant") := fun messages => by
      rw [templateTurns, countP_map]
      rfl
    rw [hcount, hroles, ← hcount]
  · simp [templateTurns]

theorem resolveAnswers_length (messages : List ChatMessage) : ∀ pending,
    (resolveAnswers pending messages).length = messages.length := by
  induction messages with
  | nil => intro pending; rfl
  | cons message messages ih =>
    intro pending
    rw [resolveAnswers]
    split <;> simp [ih]

theorem conversationMessages_turns {rendering : Rendering} {messages : List ChatMessage}
    {rendered : List TemplateMessage}
    (h : conversationMessages json backend rendering messages = .ok rendered) :
    templateTurns rendered = assistantTurns messages := by
  rw [conversationMessages] at h
  obtain ⟨plain, hplain, h⟩ := ok_of_bind h
  have hturns : templateTurns plain = assistantTurns messages := by
    have hlen := resolveAnswers_length messages []
    have hall := forall₂_of_mapM hplain
    have hcount : ∀ (entries : List (ChatMessage × Option String)) (plain : List TemplateMessage),
        Forall₂ (fun entry rendered => templateMessage json backend rendering entry.1 entry.2
          = .ok rendered) entries plain →
        templateTurns plain = assistantTurns (entries.map Prod.fst) := by
      intro entries plain hall
      induction hall with
      | nil => rfl
      | cons hhead _ ih =>
        rw [templateTurns, countP_cons, map_cons, assistantTurns, countP_cons,
          templateMessage_role hhead]
        exact congrArg (· + _) ih
    rw [hcount _ _ hall, map_fst_zip hlen.ge]
  cases h
  split
  · rw [injectInstructions_turns, hturns]
  · exact hturns

/-- A turn's text is settled by the rendering past it, so by the turn after it. -/
theorem commitTurn_turns {source : TurnSource} {assistants : List ChatMessage}
    {state after : Committed} {entry : ℕ × ℕ}
    (h : commitTurn json backend source assistants state entry = .ok after) :
    after.turns.length = state.turns.length + if entry.2 = 0 then 0 else 1 := by
  obtain ⟨position, turn⟩ := entry
  rw [commitTurn] at h
  obtain ⟨framing, -, h⟩ := ok_of_bind h
  split at h
  · cases h
  · cases turn with
    | zero => cases h; rfl
    | succ previous =>
      obtain ⟨text, -, h⟩ := ok_of_bind h
      obtain ⟨_, -, h⟩ := ok_of_bind h
      cases h
      simp

theorem commitTurns_length {source : TurnSource} {assistants : List ChatMessage}
    (positions : List ℕ) : ∀ {turn : ℕ} {state after : Committed}, 0 < turn →
      (positions.zipIdx turn).foldlM (commitTurn json backend source assistants) state = .ok after →
      after.turns.length = state.turns.length + positions.length := by
  induction positions with
  | nil => intro turn state after _ h; cases h; rfl
  | cons position positions ih =>
    intro turn state after hturn h
    rw [zipIdx_cons, foldlM_cons] at h
    obtain ⟨mid, hmid, h⟩ := ok_of_bind h
    have hstep := commitTurn_turns hmid
    rw [if_neg (Nat.pos_iff_ne_zero.mp hturn)] at hstep
    rw [ih (Nat.succ_pos turn) h, hstep, length_cons]
    omega

/-- A stream has as many turns as its record has assistant messages. -/
theorem streamTexts_turns {record : ChatExample} {texts : StreamTexts}
    (h : streamTexts json backend record = .ok texts) :
    texts.turns.length = assistantTurns record.messages := by
  rw [streamTexts] at h
  obtain ⟨_, -, h⟩ := ok_of_bind h
  dsimp only at h
  split at h
  · cases h
  · next hsome =>
    split at h
    · cases h
    · obtain ⟨rendering, -, h⟩ := ok_of_bind h
      obtain ⟨messages, hmessages, h⟩ := ok_of_bind h
      obtain ⟨⟨text, sentinels⟩, -, h⟩ := ok_of_bind h
      obtain ⟨rendered, -, h⟩ := ok_of_bind h
      obtain ⟨finished, -, h⟩ := ok_of_bind h
      obtain ⟨state, hstate, h⟩ := ok_of_bind h
      obtain ⟨last, -, h⟩ := ok_of_bind h
      cases h
      have hcount := conversationMessages_turns hmessages
      obtain ⟨positions, hpositions⟩ : ∃ positions, positions =
        (messages.zipIdx.filter fun entry => entry.1.role = "assistant").map Prod.snd := ⟨_, rfl⟩
      have hlen : positions.length = assistantTurns record.messages := by
        rw [hpositions, length_map, ← countP_eq_length_filter, ← hcount, templateTurns]
        conv_rhs => rw [← zipIdx_map_fst 0 messages, countP_map]
        rfl
      have hpos : 0 < assistantTurns record.messages := by
        rw [assistantTurns, countP_eq_length_filter]
        exact length_pos_iff.mpr fun hnil => hsome (by rw [hnil]; rfl)
      rw [← hpositions] at hstate
      cases positions with
      | nil => simp at hlen; omega
      | cons position positions =>
        rw [zipIdx_cons, foldlM_cons] at hstate
        obtain ⟨mid, hmid, hstate⟩ := ok_of_bind hstate
        have hfirst : mid.turns.length = 0 := commitTurn_turns hmid
        have hrest := commitTurns_length positions Nat.one_pos hstate
        rw [length_append, length_singleton, hrest, hfirst, ← hlen, length_cons]
        omega

/-! ### The tool path -/

/-- A token of the sequence is trained. -/
def PreparedSequence.Trained (sequence : PreparedSequence) (i : ℕ) : Prop :=
  sequence.trainMask[i]? = some true

/-- The token `i` of one side's sequence lies inside an assistant turn of its response: on the
tool path the turn's run in the stream, on the plain path the tokens the conversation up to the
turn has beyond the prompt that opens it. -/
def InResponse (json : JsonText) (backend : DatasetBackend) (record : PreferenceExample)
    (side : Side) (i : ℕ) : Prop :=
  if record.isToolRecord then
    ∃ spans turn span, assistantSpans json backend (record.conversation side) = .ok spans ∧
      assistantTurns record.prompt ≤ turn ∧ spans[turn]? = some span ∧ span.1 ≤ i ∧ i < span.2
  else
    ∃ turn opening upto, record.prompt.length ≤ turn ∧
      ((asPairs (record.conversation side))[turn]?).map Prod.fst = some "assistant" ∧
      renderTokens backend ((asPairs (record.conversation side)).take turn) true = .ok opening ∧
      renderTokens backend ((asPairs (record.conversation side)).take (turn + 1)) false = .ok upto ∧
      opening.length ≤ i ∧ i < upto.length

/-- The stream of a record, as its opening and its turns. -/
theorem stream_turns {record : ChatExample} {result : ToolStream}
    (h : stream json backend record = .ok result) :
    ∃ start turns, assistantSpans json backend record = .ok (turnSpans start turns) ∧
      turns.length = assistantTurns record.messages ∧
      result.trainMask = List.replicate start false ++ turnMask turns := by
  rw [stream] at h
  obtain ⟨texts, htexts, h⟩ := ok_of_bind h
  rw [assemble] at h
  obtain ⟨eos, heos, h⟩ := ok_of_bind h
  obtain ⟨opening, hopening, h⟩ := ok_of_bind h
  obtain ⟨turns, hturns, hlen, hmask⟩ := assembleFrom_turns h
  refine ⟨opening.length, turns, ?_, hlen.trans (streamTexts_turns htexts), hmask⟩
  rw [assistantSpans, htexts]
  show (ask _ >>= _) = _
  rw [heos]
  show (ask _ >>= _) = _
  rw [hopening]
  show (streamTurns _ _ _ _ _ >>= _) = _
  rw [hturns]
  rfl

variable {record : PreferenceExample}

/-- A response of a tool record trains from its first turn on, and only inside its turns. -/
theorem toolSide_trained {side : Side} {start : ℕ} {sequence : PreparedSequence}
    (hresponse : 0 < assistantTurns (record.side side))
    (h : toolSide json backend record side = .ok (start, sequence)) {i : ℕ}
    (htrained : sequence.Trained i) : start ≤ i ∧ ∃ spans turn span,
      assistantSpans json backend (record.conversation side) = .ok spans ∧
      assistantTurns record.prompt ≤ turn ∧ spans[turn]? = some span ∧ span.1 ≤ i ∧ i < span.2 := by
  rw [toolSide] at h
  obtain ⟨result, hresult, h⟩ := ok_of_bind h
  dsimp only at h
  split at h
  · cases h
  · next hcount =>
    cases h
    obtain ⟨first, turns, hspans, hlen, hmask⟩ := stream_turns hresult
    have hcount' := not_not.mp hcount
    rw [hmask, ← hlen] at hcount'
    have hstarts := runStarts_eq hcount'
    obtain ⟨hsorted, -⟩ := turnSpans_sorted turns first
    obtain ⟨start, hstart⟩ : ∃ start, start =
      (runStarts result.trainMask)[assistantTurns record.prompt]?.getD 0 := ⟨_, rfl⟩
    have htrained' : (List.replicate start false ++ result.trainMask.drop start)[i]? = some true := by
      rw [hstart]
      exact htrained
    rw [← hstart]
    have hle : start ≤ i := by
      by_contra hlt
      rw [getElem?_append_left (by simp; omega), getElem?_replicate] at htrained'
      split at htrained' <;> cases htrained'
    rw [getElem?_append_right (by simpa using hle), length_replicate, getElem?_drop,
      Nat.add_sub_cancel' hle, hmask, mask_iff] at htrained'
    obtain ⟨span, hspan, hlo, hhi⟩ := htrained'
    obtain ⟨turn, hturn⟩ := mem_iff_getElem?.mp hspan
    refine ⟨hle, turnSpans first turns, turn, span, hspans, ?_, hturn, hlo, hhi⟩
    -- an earlier turn ends before the response's first
    by_contra hearly
    have hin : assistantTurns record.prompt < (turnSpans first turns).length := by
      rw [turnSpans_length, hlen, PreferenceExample.conversation, assistantTurns, assistantTurns,
        countP_append]
      exact Nat.lt_add_of_pos_right hresponse
    have hresponseSpan := getElem?_eq_getElem hin
    have hbefore : span.2 ≤ (turnSpans first turns)[assistantTurns record.prompt].1 := by
      obtain ⟨hlt, rfl⟩ := List.getElem?_eq_some_iff.mp hturn
      exact pairwise_iff_getElem.mp hsorted turn _ hlt hin (Nat.not_le.mp hearly)
    rw [hmask, hstarts, getElem?_map, hresponseSpan, map_some, getD_some]
      at hstart
    omega

/-! ### The plain path -/

theorem maskSpans_iff {length : ℕ} {spans : List (ℕ × ℕ)} {i : ℕ} :
    (maskSpans length spans)[i]? = some true ↔
      0 < i ∧ i < length ∧ ∃ span ∈ spans, span.1 ≤ i ∧ i < span.2 := by
  have hfold : ∀ (targets : List ℕ) (mask : List Bool),
      let result := targets.foldl (fun mask target =>
        if 0 < target && target < mask.length then mask.set target true else mask) mask
      result.length = mask.length ∧ (result[i]? = some true ↔
        mask[i]? = some true ∨ 0 < i ∧ i < mask.length ∧ i ∈ targets) := by
    intro targets
    induction targets with
    | nil => intro mask; simp
    | cons target targets ih =>
      intro mask
      rw [foldl_cons]
      obtain ⟨hlen, hiff⟩ := ih (if 0 < target && target < mask.length then mask.set target true
        else mask)
      refine ⟨hlen.trans (by split <;> simp), hiff.trans ?_⟩
      by_cases hset : 0 < target ∧ target < mask.length
      · have hcond : (0 < target && target < mask.length) = true := by simpa using hset
        rw [if_pos hcond, length_set, getElem?_set]
        by_cases hi : target = i
        · subst i
          simp [hset.1, hset.2]
        · rw [if_neg hi]
          simp [Ne.symm hi]
      · have hcond : ¬ (0 < target && target < mask.length) = true := by simpa using hset
        rw [if_neg hcond]
        by_cases hi : i = target
        · subst i
          simp only [mem_cons, true_or, and_true]
          tauto
        · simp [hi]
  obtain ⟨-, hiff⟩ := hfold (spans.flatMap fun span => List.range' span.1 (span.2 - span.1))
    (List.replicate length false)
  rw [maskSpans]
  refine hiff.trans ?_
  have hnone : (List.replicate length false)[i]? ≠ some true := by
    rw [getElem?_replicate]
    split <;> simp
  rw [or_iff_right hnone, length_replicate]
  refine and_congr_right fun _ => and_congr_right fun _ => ?_
  simp only [mem_flatMap, mem_range'_1]
  exact exists_congr fun span => and_congr_right fun _ => by omega

/-- The spans are those of the assistant turns, and none reaches past the sequence. -/
theorem assistantLabelSpans_mem {messages : List (String × String)} {fullTokens : List Token} :
    ∀ {rest : List (String × String)} {index : ℕ} {spans : List (ℕ × ℕ)},
      messages.drop index = rest →
      assistantLabelSpans backend messages fullTokens index rest = .ok (some spans) →
      (∀ span, span ∈ spans ↔ ∃ turn opening upto, index ≤ turn ∧
        (messages[turn]?).map Prod.fst = some "assistant" ∧
        renderTokens backend (messages.take turn) true = .ok opening ∧
        renderTokens backend (messages.take (turn + 1)) false = .ok upto ∧
        span = (opening.length, upto.length)) ∧
      ∀ span ∈ spans, span.2 ≤ fullTokens.length := by
  intro rest
  induction rest with
  | nil =>
    intro index spans hrest h
    cases h
    refine ⟨fun span => iff_of_false not_mem_nil ?_, by simp⟩
    rintro ⟨turn, -, -, hle, hrole, -⟩
    have hlen : messages.length ≤ index := drop_eq_nil_iff.mp hrest
    rw [getElem?_eq_none (hlen.trans hle)] at hrole
    cases hrole
  | cons entry rest ih =>
    intro index spans hrest h
    have hhere : messages[index]? = some entry := by
      rw [← head?_drop, hrest]
      rfl
    have hnext : messages.drop (index + 1) = rest := by
      rw [← drop_drop, hrest]
      rfl
    have hsplit : ∀ turn, index ≤ turn ↔ turn = index ∨ index + 1 ≤ turn := by omega
    obtain ⟨role, content⟩ := entry
    rw [assistantLabelSpans] at h
    split at h
    · next hrole =>
      obtain ⟨hmem, hshort⟩ := ih hnext h
      refine ⟨fun span => (hmem span).trans ⟨?_, ?_⟩, hshort⟩
      · rintro ⟨turn, opening, upto, hle, hrest⟩
        exact ⟨turn, opening, upto, Nat.le_of_succ_le hle, hrest⟩
      · rintro ⟨turn, opening, upto, hle, hturn, hrest⟩
        rcases (hsplit turn).mp hle with rfl | hle
        · rw [hhere] at hturn
          exact absurd (some.inj hturn) hrole
        · exact ⟨turn, opening, upto, hle, hturn, hrest⟩
    · next hrole =>
      obtain ⟨opening, hopening, h⟩ := ok_of_bind h
      obtain ⟨upto, hupto, h⟩ := ok_of_bind h
      split at h
      · cases h
      · next hprefix =>
        obtain ⟨later, hlater, h⟩ := ok_of_bind h
        cases later with
        | none => cases h
        | some later =>
          cases h
          simp only [Bool.not_eq_true, Bool.not_eq_false', Bool.and_eq_true] at hprefix
          obtain ⟨hmem, hshort⟩ := ih hnext hlater
          refine ⟨fun span => ?_, fun span hspan => ?_⟩
          · rw [mem_cons, hmem]
            constructor
            · rintro (rfl | ⟨turn, o, u, hturn, hrest⟩)
              · exact ⟨index, opening, upto, le_rfl, by rw [hhere]; simpa using hrole, hopening,
                  hupto, rfl⟩
              · exact ⟨turn, o, u, Nat.le_of_succ_le hturn, hrest⟩
            · rintro ⟨turn, o, u, hturn, hrole', ho, hu, hspan⟩
              rcases (hsplit turn).mp hturn with rfl | hturn
              · rw [hopening] at ho
                rw [hupto] at hu
                cases ho
                cases hu
                exact .inl hspan
              · exact .inr ⟨turn, o, u, hturn, hrole', ho, hu, hspan⟩
          · rcases mem_cons.mp hspan with rfl | hspan
            · exact ( isPrefixOf_iff_prefix.mp hprefix.2).length_le
            · exact hshort span hspan

/-- A response of a plain record begins with the shared tokens, and trains the tokens of its
assistant turns. -/
theorem plainSide_trained {shared : List Token} {side : Side} {sequence : PreparedSequence}
    (h : plainSide backend record shared side = .ok sequence) :
    shared <+: sequence.tokens ∧ ∀ i, sequence.Trained i ↔ 0 < i ∧
      ∃ turn opening upto, record.prompt.length ≤ turn ∧
        ((asPairs (record.conversation side))[turn]?).map Prod.fst = some "assistant" ∧
        renderTokens backend ((asPairs (record.conversation side)).take turn) true = .ok opening ∧
        renderTokens backend ((asPairs (record.conversation side)).take (turn + 1)) false
          = .ok upto ∧
        opening.length ≤ i ∧ i < upto.length := by
  rw [plainSide] at h
  obtain ⟨tokens, -, h⟩ := ok_of_bind h
  split at h
  · cases h
  · next hshared =>
    obtain ⟨spans, hspans, h⟩ := ok_of_bind h
    cases spans with
    | none => cases h
    | some spans =>
      cases h
      obtain ⟨hmem, hshort⟩ := assistantLabelSpans_mem rfl hspans
      refine ⟨ isPrefixOf_iff_prefix.mp (by simpa using hshared), fun i => ?_⟩
      rw [PreparedSequence.Trained, maskSpans_iff]
      refine and_congr_right fun _ => ?_
      constructor
      · rintro ⟨-, span, hspan, hlo, hhi⟩
        obtain ⟨turn, opening, upto, hturn, hrole, hopening, hupto, rfl⟩ := (hmem span).mp hspan
        exact ⟨turn, opening, upto, hturn, hrole, hopening, hupto, hlo, hhi⟩
      · rintro ⟨turn, opening, upto, hturn, hrole, hopening, hupto, hlo, hhi⟩
        have hspan := (hmem (opening.length, upto.length)).mpr
          ⟨turn, opening, upto, hturn, hrole, hopening, hupto, rfl⟩
        exact ⟨hhi.trans_le (hshort _ hspan), _, hspan, hlo, hhi⟩

/-- No assistant turn of a response is rendered back into the prompt: what the conversation up to
a turn has beyond the prompt that opens it lies past the shared prompt, the first token aside. -/
def TurnsPastPrompt (backend : DatasetBackend) (record : PreferenceExample) : Prop :=
  ∀ side shared turn opening upto,
    renderTokens backend (record.prompt.map fun message => (message.role, message.content)) true
      = .ok shared →
    record.prompt.length ≤ turn →
    ((asPairs (record.conversation side))[turn]?).map Prod.fst = some "assistant" →
    renderTokens backend ((asPairs (record.conversation side)).take turn) true = .ok opening →
    renderTokens backend ((asPairs (record.conversation side)).take (turn + 1)) false = .ok upto →
    min upto.length shared.length ≤ max opening.length 1

/-! ### Prepared pairs -/

theorem validateSide_turns {side : Side} (h : record.validateSide side = .ok ()) :
    0 < assistantTurns (record.side side) := by
  rw [PreferenceExample.validateSide] at h
  split at h
  · cases h
  · next hfirst =>
    cases hmessages : record.side side with
    | nil => simp [hmessages] at hfirst
    | cons message rest =>
      have hrole : message.role = "assistant" := by simpa [hmessages] using hfirst
      simp [assistantTurns, hrole]

theorem validate_sides (h : record.validate = .ok ()) (side : Side) :
    0 < assistantTurns (record.side side) := by
  rw [PreferenceExample.validate] at h
  split at h
  · cases h
  · split at h
    · cases h
    · obtain ⟨_, hchosen, h⟩ := ok_of_bind h
      obtain ⟨_, hrejected, -⟩ := ok_of_bind h
      cases side with
      | chosen => exact validateSide_turns hchosen
      | rejected => exact validateSide_turns hrejected

/-- No JSON text is written or read on the plain path. -/
def noText : JsonText where
  encode _ := .error "no text"
  decode _ := .error "no text"
  display _ := ""

/-- Every message after the letter of its role. -/
def taggedText (messages : List (String × String)) : String :=
  messages.foldl (fun text (role, content) =>
    text ++ (if role = "assistant" then "a" else "u") ++ content) ""

/-- A backend of one token a character whose template, asked to open a generation in a
conversation that has an answer already, shows its first message alone. -/
def shorteningBackend : DatasetBackend where
  tokenizeText text := .ok (text.toList.map fun c => (c.toNat : ℤ))
  eosToken := .ok 0
  formatChat messages addAssistant :=
    .ok (if !addAssistant then taggedText messages
      else if messages.length = 1 then taggedText messages ++ "a"
      else taggedText (messages.take 1))
  tokenizeFragment _ := .error "no tools"
  isEogToken _ := .error "no tools"
  formatChatMessages _ _ _ := .error "no tools"
  chatTemplateSupportsTools := .ok false
  toolCallParser _ := .ok none
  parseAssistant _ _ := .error "no tools"

/-- A question with two answers to it, the chosen one going on as `more` says. -/
def answered (more : List ChatMessage) : PreferenceExample where
  tools := []
  prompt := [.text "user" "Q"]
  chosen := .text "assistant" "x" :: more
  rejected := [.text "assistant" "z"]

end Retrograd.Dataset
