import Retrograd.Decision.Laya
import Retrograd.Logic.Except
import Retrograd.Logic.Scan
import Retrograd.Logic.Text

/-!
# The layout of a prompt in pieces

A d1-omni prompt separates its pieces with a mark. Each piece is tokenized alone and cut to the
budget its own mark names, the state to the room the others leave, and the whole to the longest
input of the model. The options are then **found by counting**: whatever tokens are left of the
marker are the options. That reads every option at its own mark exactly when no option begins
behind the longest input.

The tokenizer is a parameter.
-/

namespace Retrograd.Decision.D1omni

open Logic List Option

/-! ### The layout -/

/-- Between the pieces of the prompt. -/
def sep : String := "<<d1omni:sep>>"

/-- At the start of the piece that holds the state. -/
def markState : String := "<<d1omni:state>>"

/-- At the start of the piece that holds the question, cut to its budget. -/
def markQuestion : String := "<<d1omni:question>>"

/-- At the start of the piece of an option, cut to its budget. -/
def markOption : String := "<<d1omni:option>>"

/-- `max_length` of the model configuration. -/
def maxTokens : ℕ := 16384

/-- `prompt.split(sep)`. -/
def piecesOf (prompt : String) : List String :=
  (splitParts (scan (literal sep.toList) prompt.toList)).map String.ofList

/-- What the options get together, shared evenly. -/
def budget (nOptions : ℕ) : ℕ :=
  let n := max nOptions 1
  max (min (24 * n + 32) (maxTokens / 2)) 96

def optionMax (nOptions : ℕ) : ℕ :=
  let n := max nOptions 1
  max ((budget nOptions - 3 * n) / n) 2

def questionMax (nOptions : ℕ) : ℕ := max (budget nOptions) 16

/-- The text of a piece, the tokens it may take, and whether it is the state. -/
def readPiece (nOptions : ℕ) (piece : String) : String × Option ℕ × Bool :=
  match stripFront piece markState with
  | some text => (text, none, true)
  | none =>
    match stripFront piece markQuestion with
    | some text => (text, some (questionMax nOptions), false)
    | none =>
      match stripFront piece markOption with
      | some text => (text, some (optionMax nOptions), false)
      | none => (piece, none, false)

/-- The pieces laid out so far: those before the state, the state, those after it. -/
structure Parts where
  head : List Token := []
  body : Option (List Token) := none
  tail : List Token := []

section

variable {ε : Type} (lift : DecisionError → ε) (tokenize : String → Except ε (List Token))

/-- The tokens of a piece, cut to its budget. -/
def cutPiece (nOptions : ℕ) (piece : String) : Except ε (List Token) := do
  let (text, limit, _) := readPiece nOptions piece
  let tokens ← tokenize text
  match limit with
  | some limit => .ok (tokens.take limit)
  | none => .ok tokens

def addPiece (nOptions : ℕ) (parts : Parts) (piece : String) : Except ε Parts := do
  let tokens ← cutPiece tokenize nOptions piece
  let isState := (readPiece nOptions piece).2.2
  match isState, parts.body with
  | true, some _ => .error (lift .layout)
  | true, none => .ok { parts with body := some tokens }
  | false, some _ => .ok { parts with tail := parts.tail ++ tokens }
  | false, none => .ok { parts with head := parts.head ++ tokens }

/-- Cuts the pieces of `prompt` and finds the marker of each of `nOptions` options. The first
piece is the media markers, none here. -/
def arrange (prompt : String) (nOptions : ℕ) (marker : Token) : Except ε Layout := do
  let pieces := piecesOf prompt
  if pieces.head? ≠ some "" then .error (lift .layout)
  else
    let parts ← pieces.tail.foldlM (addPiece lift tokenize nOptions) {}
    match parts.body with
    | none => .error (lift .layout)
    | some body =>
      let room := maxTokens - min maxTokens (parts.head.length + parts.tail.length)
      let tokens := (parts.head ++ body.take room ++ parts.tail).take maxTokens
      let markers := positions marker tokens
      if markers.length ≠ nOptions then
        .error (lift (.invalidRequest "the options do not fit in the context"))
      else .ok { tokens, markers }

end

/-! ### The pieces as they are laid out -/

/-- Whether a piece holds the state. -/
def isState (piece : String) : Bool := (stripFront piece markState).isSome

/-- Whether a piece is that of an option. -/
def isOption (piece : String) : Bool := (stripFront piece markOption).isSome

/-- The pieces of a prompt with their tokens, each cut to its own budget. -/
def cutPieces {ε : Type} (tokenize : String → Except ε (List Token)) (nOptions : ℕ)
    (prompt : String) : Except ε (List (String × List Token)) :=
  (piecesOf prompt).tail.mapM fun piece => do .ok (piece, ← cutPiece tokenize nOptions piece)

/-- What the pieces beside the state take. -/
def taken : List (String × List Token) → ℕ
  | [] => 0
  | (piece, tokens) :: cuts => (if isState piece then 0 else tokens.length) + taken cuts

/-- The pieces with the state cut to `room`. -/
def roomFor (room : ℕ) (cuts : List (String × List Token)) : List (String × List Token) :=
  cuts.map fun cut => (cut.1, if isState cut.1 then cut.2.take room else cut.2)

/-- The pieces with the state cut to the room that is left for it. -/
def laidOut (cuts : List (String × List Token)) : List (String × List Token) :=
  roomFor (maxTokens - min maxTokens (taken cuts)) cuts

/-- The tokens of pieces laid one after another. -/
def tokensOf (cuts : List (String × List Token)) : List Token := cuts.flatMap Prod.snd

/-- Where the pieces of the options begin, the pieces laid one after another from `start`. -/
def openings : ℕ → List (String × List Token) → List ℕ
  | _, [] => []
  | start, (piece, tokens) :: cuts =>
    if isOption piece then start :: openings (start + tokens.length) cuts
    else openings (start + tokens.length) cuts

variable {marker : Token} {cuts : List (String × List Token)}

theorem taken_append (l l' : List (String × List Token)) : taken (l ++ l') = taken l + taken l' := by
  induction l with
  | nil => exact (Nat.zero_add _).symm
  | cons cut l ih => rw [cons_append, taken, taken, ih, Nat.add_assoc]

theorem taken_eq (h : ∀ cut ∈ cuts, ¬ isState cut.1) : taken cuts = (tokensOf cuts).length := by
  induction cuts with
  | nil => rfl
  | cons cut cuts ih =>
    rw [forall_mem_cons] at h
    rw [taken, if_neg h.1, ih h.2]
    exact length_append.symm

theorem roomFor_eq {room : ℕ} (h : ∀ cut ∈ cuts, ¬ isState cut.1) : roomFor room cuts = cuts := by
  refine (map_congr_left fun cut hcut => ?_).trans (List.map_id cuts)
  rw [if_neg (h cut hcut)]
  rfl

theorem length_openings (start : ℕ) :
    (openings start cuts).length = cuts.countP fun cut => isOption cut.1 := by
  induction cuts generalizing start with
  | nil => rfl
  | cons cut cuts ih =>
    rw [openings, countP_cons]
    split_ifs with h
    · rw [length_cons, ih]
    · rw [ih]
      rfl

/-- The pieces of the options begin with markers. -/
theorem openings_sublist (h : ∀ cut ∈ cuts, isOption cut.1 → cut.2.head? = some marker)
    (start : ℕ) : (openings start cuts).Sublist (positionsFrom marker start (tokensOf cuts)) := by
  induction cuts generalizing start with
  | nil => exact .slnil
  | cons cut cuts ih =>
    rw [forall_mem_cons] at h
    obtain ⟨piece, tokens⟩ := cut
    rw [openings, tokensOf, flatMap_cons, positionsFrom_append]
    split_ifs with hoption
    · obtain ⟨rest, rfl⟩ : ∃ rest, tokens = marker :: rest := head?_eq_some_iff.mp (h.1 hoption)
      rw [positionsFrom_cons, if_pos rfl]
      exact ((ih h.2 _).trans (sublist_append_right ..)).cons_cons start
    · exact (ih h.2 _).trans (sublist_append_right ..)

theorem le_of_mem_positionsFrom {tokens : List Token} {start position : ℕ}
    (h : position ∈ positionsFrom marker start tokens) : start ≤ position := by
  induction tokens generalizing start with
  | nil => cases h
  | cons token tokens ih =>
    rw [positionsFrom_cons] at h
    split_ifs at h
    · rcases mem_cons.mp h with rfl | h
      · exact Nat.le_refl _
      · exact Nat.le_of_succ_le (ih h)
    · exact Nat.le_of_succ_le (ih h)

/-- What is left of the positions when the tokens are cut. -/
theorem positions_take (n : ℕ) (tokens : List Token) (start : ℕ) :
    positionsFrom marker start (tokens.take n) =
      (positionsFrom marker start tokens).filter (· < start + n) := by
  induction tokens generalizing n start with
  | nil => rw [take_nil]; rfl
  | cons token tokens ih =>
    cases n with
    | zero =>
      refine (filter_eq_nil_iff.mpr fun position hposition => ?_).symm
      simpa using le_of_mem_positionsFrom hposition
    | succ n =>
      rw [take_succ_cons, positionsFrom_cons, positionsFrom_cons, ih, Nat.succ_add_eq_add_succ]
      split_ifs
      · rw [filter_cons_of_pos (by simp)]
      · rfl

/-- The positions of what is left are the openings when no opening is cut away. -/
theorem positions_eq_openings (h : ∀ cut ∈ cuts, isOption cut.1 → cut.2.head? = some marker)
    {n : ℕ} (hlength : (positions marker ((tokensOf cuts).take n)).length =
      cuts.countP fun cut => isOption cut.1) :
    positions marker ((tokensOf cuts).take n) = openings 0 cuts ↔ ∀ start ∈ openings 0 cuts, start < n := by
  rw [positions, positions_take, Nat.zero_add] at *
  constructor
  · intro heq start hstart
    rw [← heq, mem_filter] at hstart
    simpa using hstart.2
  · intro hopenings
    have hsublist := (openings_sublist h 0).filter (· < n)
    rw [filter_eq_self.mpr (by simpa using hopenings)] at hsublist
    exact (hsublist.eq_of_length ((length_openings 0).trans hlength.symm)).symm

theorem mem_openings {start opening : ℕ} : opening ∈ openings start cuts ↔
    ∃ before piece tokens after, cuts = before ++ (piece, tokens) :: after ∧ isOption piece ∧
      opening = start + (tokensOf before).length := by
  induction cuts generalizing start with
  | nil => simp [openings]
  | cons cut cuts ih =>
    obtain ⟨piece, tokens⟩ := cut
    have htail : opening ∈ openings (start + tokens.length) cuts ↔
        ∃ before piece' tokens' after, (piece, tokens) :: cuts =
          ((piece, tokens) :: before) ++ (piece', tokens') :: after ∧ isOption piece' ∧
          opening = start + (tokensOf ((piece, tokens) :: before)).length := by
      simp only [ih, cons_append, cons.injEq, true_and, tokensOf, flatMap_cons,
        length_append, Nat.add_assoc]
    rw [openings]
    constructor
    · intro h
      split_ifs at h with hoption
      · rcases mem_cons.mp h with rfl | h
        · exact ⟨[], piece, tokens, cuts, rfl, hoption, rfl⟩
        · obtain ⟨before, rest⟩ := htail.mp h
          exact ⟨_, rest⟩
      · obtain ⟨before, rest⟩ := htail.mp h
        exact ⟨_, rest⟩
    · rintro ⟨before, piece', tokens', after, hsplit, hoption, hopening⟩
      cases before with
      | nil =>
        obtain ⟨rfl, rfl⟩ := Prod.mk.inj (cons.inj hsplit).1
        rw [if_pos hoption, hopening]
        exact mem_cons_self
      | cons first before =>
        obtain ⟨rfl, -⟩ := cons.inj hsplit
        have hmem := htail.mpr ⟨before, piece', tokens', after, hsplit, hoption, hopening⟩
        split_ifs
        · exact mem_cons_of_mem _ hmem
        · exact hmem

/-! ### Where the options stand -/

theorem taken_le_length_roomFor (room : ℕ) : taken cuts ≤ (tokensOf (roomFor room cuts)).length := by
  induction cuts with
  | nil => exact Nat.le_refl _
  | cons cut cuts ih =>
    rw [taken, roomFor, map_cons, tokensOf, flatMap_cons, length_append]
    refine Nat.add_le_add ?_ ih
    split_ifs
    · exact Nat.zero_le _
    · exact Nat.le_refl _

theorem length_roomFor_le (room : ℕ) : (tokensOf (roomFor room cuts)).length ≤
    taken cuts + (cuts.countP fun cut => isState cut.1) * room := by
  induction cuts with
  | nil => exact Nat.zero_le _
  | cons cut cuts ih =>
    rw [taken, roomFor, map_cons, tokensOf, flatMap_cons, length_append,
      countP_cons, Nat.add_mul]
    rw [tokensOf, roomFor] at ih
    split_ifs with hstate
    · have hcut : (cut.2.take room).length ≤ room := length_take_le ..
      dsimp only
      omega
    · dsimp only
      omega

variable {piece : String}

/-- An option begins within the longest input when what stands before it does, the state left
out: where there is room for the state there is room for everything. -/
theorem opening_lt_iff (hstate : (cuts.countP fun cut => isState cut.1) ≤ 1)
    {before after : List (String × List Token)} {tokens : List Token}
    (hsplit : cuts = before ++ (piece, tokens) :: after) (hpiece : ¬ isState piece)
    (htokens : tokens ≠ []) :
    (tokensOf (roomFor (maxTokens - min maxTokens (taken cuts)) before)).length < maxTokens ↔
      taken before < maxTokens := by
  have hlower := @taken_le_length_roomFor before (maxTokens - min maxTokens (taken cuts))
  have hupper := @length_roomFor_le before (maxTokens - min maxTokens (taken cuts))
  have hbefore : (before.countP fun cut => isState cut.1) ≤ 1 :=
    (hsplit ▸ (sublist_append_left ..).countP_le).trans hstate
  have hroom := (Nat.mul_le_mul_right (maxTokens - min maxTokens (taken cuts)) hbefore).trans
    (Nat.le_of_eq (Nat.one_mul _))
  have htaken : taken before + tokens.length ≤ taken cuts := by
    rw [hsplit, taken_append, taken, if_neg hpiece]
    omega
  have hpos := length_pos_iff.mpr htokens
  omega

/-! ### The loop over the pieces -/

section

variable {ε : Type} {lift : DecisionError → ε} {tokenize : String → Except ε (List Token)}
  {nOptions : ℕ}

/-- What the loop has laid out of the pieces `done`. -/
inductive Holds : List (String × List Token) → Parts → Prop
  | before {head : List (String × List Token)} (hhead : ∀ cut ∈ head, ¬ isState cut.1) :
      Holds head { head := tokensOf head }
  | after {head tail : List (String × List Token)} {piece : String} {body : List Token}
      (hhead : ∀ cut ∈ head, ¬ isState cut.1) (hpiece : isState piece)
      (htail : ∀ cut ∈ tail, ¬ isState cut.1) :
      Holds (head ++ (piece, body) :: tail)
        { head := tokensOf head, body := some body, tail := tokensOf tail }

theorem readPiece_isState (piece : String) : (readPiece nOptions piece).2.2 = isState piece := by
  unfold readPiece isState
  split
  next h => rw [h]; rfl
  next h =>
    rw [h]
    split
    · rfl
    · split <;> rfl

theorem tokensOf_concat (l : List (String × List Token)) (piece : String) (tokens : List Token) :
    tokensOf (l ++ [(piece, tokens)]) = tokensOf l ++ tokens := by
  rw [tokensOf, flatMap_append, flatMap_singleton]
  rfl

theorem Holds.step {done : List (String × List Token)} {parts parts' : Parts} {piece : String}
    (holds : Holds done parts) (h : addPiece lift tokenize nOptions parts piece = .ok parts') :
    ∃ tokens, cutPiece tokenize nOptions piece = .ok tokens ∧
      Holds (done ++ [(piece, tokens)]) parts' := by
  unfold addPiece at h
  obtain ⟨tokens, htokens, h⟩ := ok_of_bind h
  refine ⟨tokens, htokens, ?_⟩
  dsimp only at h
  rw [readPiece_isState] at h
  cases holds with
  | before hhead =>
    cases hpiece : isState piece with
    | true =>
      rw [hpiece] at h
      cases h
      exact .after hhead hpiece nofun
    | false =>
      rw [hpiece] at h
      cases h
      rw [← tokensOf_concat]
      refine .before fun cut hcut => ?_
      rcases mem_append.mp hcut with hcut | hcut
      · exact hhead cut hcut
      · rw [mem_singleton.mp hcut, hpiece]
        nofun
  | after hhead hfirst htail =>
    cases hpiece : isState piece with
    | true =>
      rw [hpiece] at h
      cases h
    | false =>
      rw [hpiece] at h
      cases h
      rw [← tokensOf_concat, append_assoc, cons_append]
      refine .after hhead hfirst fun cut hcut => ?_
      rcases mem_append.mp hcut with hcut | hcut
      · exact htail cut hcut
      · rw [mem_singleton.mp hcut, hpiece]
        nofun

theorem Holds.run {pieces : List String} {done : List (String × List Token)} {parts parts' : Parts}
    (holds : Holds done parts)
    (h : pieces.foldlM (addPiece lift tokenize nOptions) parts = .ok parts') :
    ∃ cuts, pieces.mapM (fun piece => do .ok (piece, ← cutPiece tokenize nOptions piece)) =
      .ok cuts ∧ Holds (done ++ cuts) parts' := by
  induction pieces generalizing done parts with
  | nil =>
    cases h
    exact ⟨[], rfl, by rwa [append_nil]⟩
  | cons piece pieces ih =>
    rw [foldlM_cons] at h
    obtain ⟨mid, hmid, h⟩ := ok_of_bind h
    obtain ⟨tokens, htokens, hholds⟩ := holds.step hmid
    obtain ⟨cuts, hcuts, hholds⟩ := ih hholds h
    refine ⟨(piece, tokens) :: cuts, ?_, by simpa using hholds⟩
    rw [mapM_cons, htokens, hcuts]
    rfl

/-- With a state among the pieces, what was laid out is what the room leaves of it. -/
theorem Holds.laidOut {parts : Parts} {body : List Token} (holds : Holds cuts parts)
    (hbody : parts.body = some body) :
    (cuts.countP fun cut => isState cut.1) = 1 ∧
      parts.head ++ body.take (maxTokens - min maxTokens (parts.head.length + parts.tail.length))
        ++ parts.tail = tokensOf (laidOut cuts) := by
  cases holds with
  | before => cases hbody
  | @after head tail piece body' hhead hpiece htail =>
    obtain rfl : body' = body := some.inj hbody
    have htaken : taken (head ++ (piece, body') :: tail) =
        (tokensOf head).length + (tokensOf tail).length := by
      rw [taken_append, taken, if_pos hpiece, Nat.zero_add, taken_eq hhead, taken_eq htail]
    constructor
    · rw [countP_append, countP_cons, countP_eq_zero.mpr hhead,
        countP_eq_zero.mpr htail, if_pos hpiece]
    · rw [D1omni.laidOut, htaken, roomFor, map_append, map_cons, if_pos hpiece]
      have hroom := @roomFor_eq
      unfold roomFor at hroom
      rw [hroom hhead, hroom htail]
      simp [tokensOf]

/-- Two marks of which neither is the front of the other do not both stand at the front of a
piece. -/
theorem stripFront_eq_none {piece other mark : String} (hpiece : (stripFront piece other).isSome)
    (hmark : ¬ other.toList <+: mark.toList ∧ ¬ mark.toList <+: other.toList) :
    stripFront piece mark = none := by
  rw [← not_isSome_iff_eq_none, isSome_stripFront]
  intro hfront
  rw [isSome_stripFront] at hpiece
  exact ( prefix_or_prefix_of_prefix hpiece hfront).elim hmark.1 hmark.2

theorem stripFront_other {other mark : String} (text : String)
    (hmark : ¬ other.toList <+: mark.toList ∧ ¬ mark.toList <+: other.toList) :
    stripFront (other ++ text) mark = none :=
  stripFront_eq_none (by rw [stripFront_append]; rfl) hmark

@[simp] theorem readPiece_state (text : String) :
    readPiece nOptions (markState ++ text) = (text, none, true) := by
  rw [readPiece, stripFront_append]

@[simp] theorem readPiece_question (text : String) :
    readPiece nOptions (markQuestion ++ text) = (text, some (questionMax nOptions), false) := by
  rw [readPiece, stripFront_other text (by decide), stripFront_append]

@[simp] theorem readPiece_option (text : String) :
    readPiece nOptions (markOption ++ text) = (text, some (optionMax nOptions), false) := by
  rw [readPiece, stripFront_other text (by decide), stripFront_other text (by decide),
    stripFront_append]

@[simp] theorem isState_question (text : String) : isState (markQuestion ++ text) = false := by
  rw [isState, stripFront_other text (by decide)]
  rfl

@[simp] theorem isState_option (text : String) : isState (markOption ++ text) = false := by
  rw [isState, stripFront_other text (by decide)]
  rfl

@[simp] theorem isState_state (text : String) : isState (markState ++ text) = true := by
  rw [isState, stripFront_append]
  rfl

@[simp] theorem isOption_question (text : String) : isOption (markQuestion ++ text) = false := by
  rw [isOption, stripFront_other text (by decide)]
  rfl

@[simp] theorem isOption_option (text : String) : isOption (markOption ++ text) = true := by
  rw [isOption, stripFront_append]
  rfl

@[simp] theorem isOption_state (text : String) : isOption (markState ++ text) = false := by
  rw [isOption, stripFront_other text (by decide)]
  rfl

/-- The text of an option is cut, never its first token. -/
theorem head_cutPiece {marker : Token} {piece : String} {tokens : List Token}
    (h : cutPiece tokenize nOptions piece = .ok tokens) (hpiece : isOption piece)
    (hmark : ∀ text, stripFront piece markOption = some text → ∀ tokens,
      tokenize text = .ok tokens → tokens.head? = some marker) : tokens.head? = some marker := by
  obtain ⟨text, htext⟩ := isSome_iff_exists.mp hpiece
  have hread : readPiece nOptions piece = (text, some (optionMax nOptions), false) := by
    rw [readPiece, stripFront_eq_none hpiece (by decide), stripFront_eq_none hpiece (by decide),
      htext]
  have hlimit : optionMax nOptions ≠ 0 :=
    Nat.ne_of_gt (Nat.lt_of_lt_of_le Nat.two_pos (Nat.le_max_right ..))
  unfold cutPiece at h
  rw [hread] at h
  obtain ⟨whole, hwhole, h⟩ := ok_of_bind h
  cases h
  rw [head?_take, if_neg hlimit]
  exact hmark text htext whole hwhole

variable {prompt : String}

theorem forall₂_of_cutPieces {cuts : List (String × List Token)}
    (h : cutPieces tokenize nOptions prompt = .ok cuts) : Forall₂ (fun piece cut =>
      piece = cut.1 ∧ cutPiece tokenize nOptions cut.1 = .ok cut.2) (piecesOf prompt).tail cuts := by
  refine (forall₂_of_mapM h).imp fun piece cut hcut => ?_
  obtain ⟨tokens, htokens, hcut⟩ := ok_of_bind hcut
  obtain rfl := Except.ok.inj hcut
  exact ⟨rfl, htokens⟩

theorem map_fst_of_cutPieces {cuts : List (String × List Token)}
    (h : cutPieces tokenize nOptions prompt = .ok cuts) :
    cuts.map Prod.fst = (piecesOf prompt).tail := by
  have hall := (forall₂_of_cutPieces h).imp fun piece cut hcut => hcut.1
  rw [← forall₂_map_right_iff, forall₂_eq_eq_eq] at hall
  exact hall.symm

theorem cutPiece_of_mem {cuts : List (String × List Token)} {cut : String × List Token}
    (h : cutPieces tokenize nOptions prompt = .ok cuts) (hcut : cut ∈ cuts) :
    cutPiece tokenize nOptions cut.1 = .ok cut.2 := by
  obtain ⟨i, hi⟩ := mem_iff_getElem?.mp hcut
  obtain ⟨piece, -, -, hpiece⟩ := forall₂_getElem? (forall₂_of_cutPieces h) hi
  exact hpiece

/-- No option is cut away when what stands before the last one, the state left out, is short. -/
theorem openings_laidOut_lt_iff (hstate : (cuts.countP fun cut => isState cut.1) ≤ 1)
    (hoption : ∀ cut ∈ cuts, isOption cut.1 → ¬ isState cut.1 ∧ cut.2 ≠ []) :
    (∀ start ∈ openings 0 (laidOut cuts), start < maxTokens) ↔
      ∀ before piece tokens after, cuts = before ++ (piece, tokens) :: after → isOption piece →
        taken before < maxTokens := by
  have hiff {before after : List (String × List Token)} {piece : String} {tokens : List Token}
      (hsplit : cuts = before ++ (piece, tokens) :: after) (hpiece : isOption piece) :=
    have hcut := hoption (piece, tokens) (by simp [hsplit]) hpiece
    opening_lt_iff hstate hsplit hcut.1 hcut.2
  constructor
  · intro h before piece tokens after hsplit hpiece
    have hlaid := congrArg (roomFor (maxTokens - min maxTokens (taken cuts))) hsplit
    conv_rhs at hlaid => rw [roomFor, map_append, map_cons]
    exact (hiff hsplit hpiece).mp
      (h _ (mem_openings.mpr ⟨_, piece, _, _, hlaid, hpiece, (Nat.zero_add _).symm⟩))
  · intro h start hstart
    obtain ⟨before', piece', tokens', after', hsplit, hpiece, rfl⟩ := mem_openings.mp hstart
    rw [laidOut, roomFor, map_eq_append_iff] at hsplit
    obtain ⟨before, rest, hcuts, rfl, hrest⟩ := hsplit
    obtain ⟨cut, after, rfl, hcut, rfl⟩ := map_eq_cons_iff.mp hrest
    obtain ⟨rfl, -⟩ := Prod.mk.inj hcut
    rw [Nat.zero_add]
    exact (hiff hcuts hpiece).mpr (h before cut.1 cut.2 after hcuts hpiece)

theorem arrange_ok {marker : Token} {parts : Parts} {body tokens : List Token}
    (hfirst : (piecesOf prompt).head? = some "")
    (hparts : (piecesOf prompt).tail.foldlM (addPiece lift tokenize nOptions) {} = .ok parts)
    (hbody : parts.body = some body)
    (htokens : (parts.head ++ body.take (maxTokens - min maxTokens (parts.head.length + parts.tail.length)) ++ parts.tail).take maxTokens = tokens)
    (hcount : (positions marker tokens).length = nOptions) :
    arrange lift tokenize prompt nOptions marker =
      .ok { tokens, markers := positions marker tokens } := by
  unfold arrange
  dsimp only
  rw [if_neg (by simp [hfirst]), hparts]
  change (match parts.body with | none => _ | some body => _) = _
  rw [hbody]
  dsimp only
  rw [htokens, if_neg (by simp [hcount])]

/-- A layout that is accepted holds **no more than the longest input**, and reads every option at
the first token of its own piece exactly when what stands before the last option, the state left
out, is shorter than the longest input. -/
theorem arrange_reads_iff {prompt : String} {marker : Token} {layout : Layout}
    {cuts : List (String × List Token)}
    (hcount : ((piecesOf prompt).tail.countP isOption) = nOptions)
    (hmark : ∀ piece ∈ (piecesOf prompt).tail, ∀ text, stripFront piece markOption = some text →
      ∀ tokens, tokenize text = .ok tokens → tokens.head? = some marker)
    (hcuts : cutPieces tokenize nOptions prompt = .ok cuts)
    (h : arrange lift tokenize prompt nOptions marker = .ok layout) :
    layout.tokens = (tokensOf (laidOut cuts)).take maxTokens ∧ layout.tokens.length ≤ maxTokens ∧
      (layout.markers = openings 0 (laidOut cuts) ↔
        ∀ before piece tokens after, cuts = before ++ (piece, tokens) :: after → isOption piece →
          taken before < maxTokens) := by
  unfold arrange at h
  dsimp only at h
  split_ifs at h with hfirst
  obtain ⟨parts, hparts, h⟩ := ok_of_bind h
  obtain ⟨cuts', hcuts', holds⟩ := Holds.run (@Holds.before [] nofun) hparts
  obtain rfl : cuts' = cuts := Except.ok.inj (hcuts'.symm.trans hcuts)
  rw [List.nil_append] at holds
  split at h
  next => cases h
  next body hbody =>
    split_ifs at h with hlength
    obtain rfl := Except.ok.inj h
    obtain ⟨hstate, hlaid⟩ := holds.laidOut hbody
    rw [hlaid] at hlength ⊢
    have hpieces : cuts'.map Prod.fst = (piecesOf prompt).tail := map_fst_of_cutPieces hcuts
    have hoption : ∀ cut ∈ cuts', isOption cut.1 → cut.2.head? = some marker := by
      intro cut hcut hpiece
      have hmem : cut.1 ∈ (piecesOf prompt).tail := hpieces ▸ List.mem_map_of_mem hcut
      exact head_cutPiece (cutPiece_of_mem hcuts hcut) hpiece (hmark cut.1 hmem)
    have hnotState : ∀ cut ∈ cuts', isOption cut.1 → ¬ isState cut.1 := by
      intro cut _ hpiece
      rw [isState, stripFront_eq_none hpiece (by decide)]
      nofun
    have hlaidOption : ∀ cut ∈ laidOut cuts', isOption cut.1 → cut.2.head? = some marker := by
      intro cut hcut hpiece
      obtain ⟨cut, hmem, rfl⟩ := List.mem_map.mp hcut
      dsimp only
      rw [if_neg (hnotState cut hmem hpiece)]
      exact hoption cut hmem hpiece
    refine ⟨rfl, List.length_take_le .., ?_⟩
    rw [positions_eq_openings hlaidOption]
    · refine openings_laidOut_lt_iff hstate.le fun cut hcut hpiece => ⟨hnotState cut hcut hpiece, ?_⟩
      rintro hnil
      simpa [hnil] using hoption cut hcut hpiece
    · rw [not_not.mp hlength, ← hcount, ← hpieces, List.countP_map, laidOut, roomFor,
        List.countP_map]
      rfl

end

/-! ### A prompt of written pieces -/

/-- The prompt of some pieces. -/
def promptOf (pieces : List String) : String :=
  String.ofList (pieces.flatMap fun piece => sep.toList ++ piece.toList)

/-- No separator begins in a piece. -/
def Free (piece : String) : Prop :=
  ∀ suffix ∈ piece.toList.tails, suffix = [] ∨ literal sep.toList (suffix ++ sep.toList) = none

instance (piece : String) : Decidable (Free piece) :=
  inferInstanceAs (Decidable (∀ _ ∈ _, _))

variable {pieces : List String}

theorem scanned_pieces : ∀ {piece : String}, Free piece →
    (∀ piece ∈ pieces, Free piece) → ∃ parts, Scanned (literal sep.toList)
      (piece.toList ++ pieces.flatMap fun piece => sep.toList ++ piece.toList) parts ∧
      splitParts parts = (piece :: pieces).map String.toList := by
  induction pieces with
  | nil =>
    intro piece hpiece _
    refine ⟨piece.toList.map .inl, ?_, splitParts_map_inl _⟩
    rw [flatMap_nil, ← append_nil (piece.toList.map _)]
    refine .pass_append (fun suffix hne hsuffix => ?_) .nil
    have hnone := (hpiece suffix ((mem_tails _ _).mpr hsuffix)).resolve_left hne
    rw [append_nil, literal_eq_none]
    exact fun hfront => literal_eq_none.mp hnone (hfront.trans (prefix_append ..))
  | cons next pieces ih =>
    intro piece hpiece hpieces
    rw [forall_mem_cons] at hpieces
    obtain ⟨parts, hparts, hsplit⟩ := ih hpieces.1 hpieces.2
    refine ⟨_, ?_, (splitParts_append piece.toList sep.toList parts).trans (congrArg _ hsplit)⟩
    rw [flatMap_cons, append_assoc]
    exact scanned_piece hpiece hparts

theorem piecesOf_promptOf (h : ∀ piece ∈ pieces, Free piece) :
    piecesOf (promptOf pieces) = "" :: pieces := by
  have hempty : Free "" := by decide
  obtain ⟨parts, hparts, hsplit⟩ := scanned_pieces hempty h
  rw [piecesOf, promptOf, String.toList_ofList]
  have hscan := hparts.scan_eq (matches_literal (by decide))
  rw [show ("" : String).toList = [] from rfl, nil_append] at hscan
  rw [hscan, hsplit, List.map_map]
  simp

/-- A tokenizer with one token for each character, the marker written `@`. -/
def charTokens (text : String) : Except DecisionError (List Token) :=
  .ok (text.toList.map fun c => if c = '@' then 4 else c.toNat)

/-- The options whose texts begin with the marker begin with its token. -/
theorem marks_of_head
    (h : ∀ piece ∈ pieces, ((stripFront piece markOption).all fun text => text.toList.head? = some '@')) :
    ∀ piece ∈ pieces, ∀ text, stripFront piece markOption = some text → ∀ tokens,
      charTokens text = .ok tokens → tokens.head? = some 4 := by
  intro piece hpiece text htext tokens htokens
  have hhead := h piece hpiece
  rw [htext, all_some, decide_eq_true_eq] at hhead
  obtain rfl := Except.ok.inj htokens
  rw [head?_map, hhead]
  rfl

/-- A question whose first token is the marker, and options of two tokens each. -/
def crowded (n : ℕ) : List String :=
  (markQuestion ++ "@a") :: List.replicate n (markOption ++ "@a") ++ [markState]

theorem free_crowded (n : ℕ) : ∀ piece ∈ crowded n, Free piece := by
  have hquestion : Free (markQuestion ++ "@a") := by decide +kernel
  have hoption : Free (markOption ++ "@a") := by decide +kernel
  have hstate : Free markState := by decide +kernel
  intro piece hpiece
  simp only [crowded, cons_append, mem_cons, mem_append, mem_replicate,
    not_mem_nil, or_false] at hpiece
  rcases hpiece with rfl | ⟨-, rfl⟩ | rfl
  · exact hquestion
  · exact hoption
  · exact hstate

theorem cutPiece_crowded (h : piece = markQuestion ++ "@a" ∨ piece = markOption ++ "@a") :
    cutPiece charTokens 8192 piece = .ok [4, 97] := by
  unfold cutPiece
  rcases h with rfl | rfl
  · rw [readPiece_question]
    rfl
  · rw [readPiece_option]
    rfl

theorem cutPiece_state (nOptions : ℕ) : cutPiece charTokens nOptions markState = .ok [] := by
  have hread : readPiece nOptions markState = ("", none, true) :=
    (congrArg _ String.append_empty.symm).trans (readPiece_state "")
  rw [cutPiece, hread]
  rfl

/-- A pair of a marker and another token, again and again. -/
def pairs (n : ℕ) : List Token := (List.replicate n [4, 97]).flatten

theorem pairs_succ (n : ℕ) : pairs (n + 1) = [4, 97] ++ pairs n := rfl

theorem positionsFrom_pairs (start n : ℕ) :
    positionsFrom 4 start (pairs n) = (List.range n).map (start + 2 * ·) := by
  induction n generalizing start with
  | zero => rfl
  | succ n ih =>
    rw [pairs_succ, cons_append, singleton_append, positionsFrom_cons, if_pos rfl,
      positionsFrom_cons, if_neg (by decide), ih, range_succ_eq_map, map_cons,
      List.map_map]
    congr 1
    refine map_congr_left fun i _ => ?_
    simp only [Function.comp]
    omega

theorem take_pairs (n : ℕ) : (pairs (n + 1)).take (2 * n) = pairs n := by
  have hlength : (pairs n).length = 2 * n := by simp [pairs, Nat.mul_comm]
  rw [pairs, replicate_succ', flatten_append, ← hlength]
  exact take_left

theorem addPiece_crowded {lift : DecisionError → DecisionError}
    (h : piece = markQuestion ++ "@a" ∨ piece = markOption ++ "@a") (head : List Token) :
    addPiece lift charTokens 8192 { head } piece = .ok { head := head ++ [4, 97] } := by
  have hstate : (readPiece 8192 piece).2.2 = false := by
    rcases h with rfl | rfl <;> simp
  unfold addPiece
  rw [cutPiece_crowded h, hstate]
  rfl

theorem foldlM_crowded {lift : DecisionError → DecisionError} (n : ℕ) (head : List Token) :
    (List.replicate n (markOption ++ "@a")).foldlM (addPiece lift charTokens 8192) { head } =
      .ok { head := head ++ pairs n } := by
  induction n generalizing head with
  | zero => exact congrArg (fun head => Except.ok (Parts.mk head none [])) (append_nil _).symm
  | succ n ih =>
    rw [replicate_succ, foldlM_cons, addPiece_crowded (.inr rfl), pairs_succ,
      ← append_assoc]
    exact ih _

theorem mapM_replicate {α β : Type} {f : α → Except DecisionError β} {a : α} {b : β}
    (h : f a = .ok b) (n : ℕ) : (List.replicate n a).mapM f = .ok (List.replicate n b) := by
  induction n with
  | zero => rfl
  | succ n ih =>
    rw [replicate_succ, mapM_cons, h, ih]
    rfl

/-- The pieces of the crowded prompt. -/
def crowdedCuts (n : ℕ) : List (String × List Token) :=
  (markQuestion ++ "@a", [4, 97]) :: List.replicate n (markOption ++ "@a", [4, 97]) ++
    [(markState, [])]

theorem cutPieces_crowded (n : ℕ) :
    cutPieces charTokens 8192 (promptOf (crowded n)) = .ok (crowdedCuts n) := by
  have hoptions := mapM_replicate (f := fun piece => do
    .ok (piece, ← cutPiece charTokens 8192 piece)) (congrArg (· >>= fun tokens =>
      .ok (markOption ++ "@a", tokens)) (cutPiece_crowded (.inr rfl))) n
  rw [cutPieces, piecesOf_promptOf (free_crowded n), tail_cons, crowded, cons_append,
    mapM_cons, mapM_append, hoptions, cutPiece_crowded (.inl rfl), mapM_cons,
    cutPiece_state]
  rfl

theorem foldlM_pieces {lift : DecisionError → DecisionError} (n : ℕ) :
    (crowded n).foldlM (addPiece lift charTokens 8192) {} =
      .ok { head := pairs (n + 1), body := some [] } := by
  have hstate : addPiece lift charTokens 8192 { head := [4, 97] ++ pairs n } markState =
      .ok { head := [4, 97] ++ pairs n, body := some [] } := by
    have hlast : (readPiece 8192 markState).2.2 = true :=
      (readPiece_isState _).trans ((congrArg _ String.append_empty.symm).trans (isState_state ""))
    unfold addPiece
    rw [cutPiece_state, hlast]
    rfl
  rw [crowded, cons_append, foldlM_cons, addPiece_crowded (.inl rfl) []]
  refine Eq.trans (foldlM_append ..) ?_
  exact (congrArg (· >>= fun parts => [markState].foldlM (addPiece lift charTokens 8192) parts)
    (foldlM_crowded n [4, 97])).trans hstate

theorem length_positions_pairs (n : ℕ) : (positions 4 (pairs n)).length = n := by
  rw [positions, positionsFrom_pairs, length_map, length_range]

theorem arrange_crowded (n : ℕ) (h : 2 * n = maxTokens) (hn : n = 8192) :
    arrange id charTokens (promptOf (crowded n)) 8192 4 =
      .ok { tokens := pairs n, markers := positions 4 (pairs n) } := by
  have hpieces := piecesOf_promptOf (free_crowded n)
  refine arrange_ok (by rw [hpieces]; rfl) (by rw [hpieces]; exact foldlM_pieces n) rfl ?_ ?_
  · rw [take_nil, append_nil, append_nil, ← h, take_pairs]
  · rw [length_positions_pairs, hn]

theorem countP_crowded (n : ℕ) : (crowded n).countP isOption = n := by
  have hstate : isOption markState = false :=
    (congrArg _ String.append_empty.symm).trans (isOption_state "")
  rw [crowded, cons_append, countP_cons_of_neg (by simp), countP_append,
    countP_replicate, if_pos (isOption_option _), countP_singleton, if_neg (by simp [hstate]),
    Nat.add_zero]

theorem head_openings_crowded (n : ℕ) :
    (openings 0 (laidOut (crowdedCuts (n + 1)))).head? = some 2 := by
  rw [laidOut, roomFor, crowdedCuts, cons_append, map_cons, openings,
    if_neg (by simp), replicate_succ, cons_append, map_cons, openings,
    if_pos (isOption_option _), head?_cons, if_neg (by simp)]
  rfl

/-- The last of 8192 options is cut away, the question's marker is counted in its place, and
every option is read at the mark of the one before it. -/
theorem arrange_misreads : ∃ layout cuts,
    (piecesOf (promptOf (crowded 8192))).tail.countP isOption = 8192 ∧
    (∀ piece ∈ (piecesOf (promptOf (crowded 8192))).tail, ∀ text,
      stripFront piece markOption = some text → ∀ tokens, charTokens text = .ok tokens →
        tokens.head? = some 4) ∧
    cutPieces charTokens 8192 (promptOf (crowded 8192)) = .ok cuts ∧
    arrange id charTokens (promptOf (crowded 8192)) 8192 4 = .ok layout ∧
    layout.markers.head? = some 0 ∧ (openings 0 (laidOut cuts)).head? = some 2 := by
  refine ⟨_, crowdedCuts 8192, ?_, ?_, cutPieces_crowded 8192, arrange_crowded 8192 rfl rfl, ?_,
    head_openings_crowded 8191⟩
  · rw [piecesOf_promptOf (free_crowded _), List.tail_cons, countP_crowded]
  · rw [piecesOf_promptOf (free_crowded _), List.tail_cons]
    refine marks_of_head fun piece hpiece => ?_
    simp only [crowded, List.cons_append, List.mem_cons, List.mem_append, List.mem_replicate,
      List.not_mem_nil, or_false] at hpiece
    rcases hpiece with rfl | ⟨-, rfl⟩ | rfl
    · rw [stripFront_other _ (by decide)]
      rfl
    · rw [stripFront_append]
      rfl
    · rw [show stripFront markState markOption = none from
        (congrArg (stripFront · _) String.append_empty.symm).trans (stripFront_other "" (by decide))]
      rfl
  · rw [positions, positionsFrom_pairs, List.range_succ_eq_map]
    rfl

/-- A question, two options, a state and a tail. -/
def plain : List String :=
  [markQuestion ++ "why", markOption ++ "@ab", markOption ++ "@c", markState ++ "st", "</s>"]

def plainCuts : List (String × List Token) :=
  [(markQuestion ++ "why", [119, 104, 121]), (markOption ++ "@ab", [4, 97, 98]),
    (markOption ++ "@c", [4, 99]), (markState ++ "st", [115, 116]), ("</s>", [60, 47, 115, 62])]

theorem piecesOf_plain : piecesOf (promptOf plain) = "" :: plain := by
  refine piecesOf_promptOf fun piece hpiece => ?_
  simp only [plain, mem_cons, not_mem_nil, or_false] at hpiece
  rcases hpiece with rfl | rfl | rfl | rfl | rfl <;> decide +kernel

theorem stripFront_end {mark : String} (h : ¬ mark.toList <+: "</s>".toList) :
    stripFront "</s>" mark = none := by
  rwa [← not_isSome_iff_eq_none, isSome_stripFront]

theorem readPiece_end (nOptions : ℕ) : readPiece nOptions "</s>" = ("</s>", none, false) := by
  rw [readPiece, stripFront_end (by decide), stripFront_end (by decide), stripFront_end (by decide)]

theorem cutPieces_plain : cutPieces charTokens 2 (promptOf plain) = .ok plainCuts := by
  rw [cutPieces, piecesOf_plain, tail_cons]
  simp only [plain, mapM_cons, mapM_nil, cutPiece, readPiece_question, readPiece_option,
    readPiece_state, readPiece_end]
  rfl

theorem foldlM_plain : plain.foldlM (addPiece id charTokens 2) {} =
    .ok { head := [119, 104, 121, 4, 97, 98, 4, 99], body := some [115, 116],
          tail := [60, 47, 115, 62] } := by
  simp only [plain, foldlM_cons, foldlM_nil, addPiece, cutPiece, readPiece_question,
    readPiece_option, readPiece_state, readPiece_end]
  rfl

/-- Two options, both read at their own marks. -/
theorem arrange_reads_plain : ∃ layout, arrange id charTokens (promptOf plain) 2 4 = .ok layout ∧
    openings 0 (laidOut plainCuts) = [3, 6] ∧ layout.markers = openings 0 (laidOut plainCuts) := by
  have h : arrange id charTokens (promptOf plain) 2 4 =
      .ok { tokens := [119, 104, 121, 4, 97, 98, 4, 99, 115, 116, 60, 47, 115, 62]
            markers := [3, 6] } :=
    arrange_ok (by rw [piecesOf_plain]; rfl) (by rw [piecesOf_plain]; exact foldlM_plain) rfl rfl rfl
  have hend : isState "</s>" = false ∧ isOption "</s>" = false :=
    ⟨congrArg Option.isSome (stripFront_end (by decide)),
      congrArg Option.isSome (stripFront_end (by decide))⟩
  have hlaid : laidOut plainCuts = plainCuts := by
    simp [laidOut, roomFor, plainCuts, taken, hend, maxTokens]
  refine ⟨_, h, by rw [hlaid]; simp [plainCuts, openings, hend], (arrange_reads_iff ?_ ?_
    cutPieces_plain h).2.2.mpr ?_⟩
  · rw [piecesOf_plain]
    simp [plain, hend]
  · rw [piecesOf_plain]
    refine marks_of_head fun piece hpiece => ?_
    simp only [plain, List.tail_cons, List.mem_cons, List.not_mem_nil, or_false] at hpiece
    rcases hpiece with rfl | rfl | rfl | rfl | rfl
    · rw [stripFront_other _ (by decide)]
      rfl
    · rw [stripFront_append]
      rfl
    · rw [stripFront_append]
      rfl
    · rw [stripFront_other _ (by decide)]
      rfl
    · rw [stripFront_end (by decide)]
      rfl
  · intro before piece tokens after hsplit _
    have htaken := congrArg taken hsplit
    rw [taken_append, show taken plainCuts = 12 by simp [plainCuts, taken, hend]] at htaken
    rw [maxTokens]
    omega

end Retrograd.Decision.D1omni
