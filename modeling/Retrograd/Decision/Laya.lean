import Mathlib.Data.List.Flatten
import Mathlib.Algebra.Order.BigOperators.Group.List
import Mathlib.Algebra.Order.Group.Nat
import Mathlib.Data.Nat.Cast.Basic

/-!
# The layout of a marker readout

`[cls] question [sep] ([marker] option)* [sep] state [sep]`: the question and the options of a
rendered prompt are cut to a token budget, and every option is read at its marker. A rendering
that is accepted **is such a prompt**, in one way only, and what is evaluated is the prompt with
the cut question and the cut options.
-/

namespace Retrograd.Decision

open List

/-- A token id. -/
abbrev Token := ℤ

/-- The prompt a model evaluates and where it is read. -/
structure Layout where
  tokens : List Token
  /-- Positions whose output holds the score of an option, in option order. -/
  markers : List ℕ
  /-- Position of the query of a pointer readout. -/
  pointer : Option ℕ := none
  /-- The decision order of each token, for a joint head. -/
  order : List ℤ := []
  deriving DecidableEq, Repr

/-- Why a prompt is not evaluated. -/
inductive DecisionError where
  | layout
  | invalidModel (message : String)
  | invalidRequest (message : String)
  deriving DecidableEq, Repr

/-! ### The layout -/

/-- Tokens an option may keep, its marker not counted. -/
def maxOptionTokens : ℕ := 48

/-- What the head keeps free for the question before the options are shrunk. -/
def questionReserve : ℕ := 16

/-- The least an option keeps when the options are shrunk evenly. -/
def minOptionTokens : ℕ := 4

/-- The least the question keeps. -/
def minQuestionTokens : ℕ := 8

/-- The token budget of the head of the prompt: the question and the options. -/
structure Budget where
  maxHeadTokens : ℕ
  maxOptionTokens : ℕ
  head_pos : 0 < maxHeadTokens

def Budget.new (maxHeadTokens : ℕ) : Except DecisionError Budget :=
  if h : 0 < maxHeadTokens then .ok ⟨maxHeadTokens, Decision.maxOptionTokens, h⟩
  else .error (.invalidModel "decision model has no valid max_head_tokens")

/-- The positions of a token, the first one being `start`. -/
def positionsFrom (marker : Token) (start : ℕ) (tokens : List Token) : List ℕ :=
  (tokens.zipIdx start).filterMap fun (token, position) =>
    if token = marker then some position else none

/-- The positions of a token. -/
def positions (marker : Token) (tokens : List Token) : List ℕ := positionsFrom marker 0 tokens

/-- The options cut to `max` tokens each, and what they take together. -/
def cutTo (options : List (List Token)) (max : ℕ) : List (List Token) × ℕ :=
  let options := options.map (List.take max)
  (options, (options.map List.length).sum)

/-- The options as they are kept, and the most the question may take. -/
def cutHead (budget : Budget) (options : List (List Token)) : List (List Token) × ℕ :=
  let maxHead := budget.maxHeadTokens
  let (options, taken) := cutTo options (budget.maxOptionTokens + 1)
  let (options, taken) :=
    if maxHead < taken + questionReserve then
      -- too many or too long options: shrink them evenly
      let each := (maxHead - min maxHead questionReserve) / options.length
      cutTo options (max each minOptionTokens)
    else (options, taken)
  (options, max minQuestionTokens (maxHead - min maxHead taken))

/-- The options one after another, with the position of each. -/
def placeOptions : ℕ → List (List Token) → List Token × List ℕ
  | _, [] => ([], [])
  | start, option :: options =>
    let (tokens, markers) := placeOptions (start + option.length) options
    (option ++ tokens, start :: markers)

/-- Cuts the head of `rendered` and finds the marker of each of `nOptions` options. -/
def arrange (rendered : List Token) (nOptions : ℕ) (marker sep : Token) (budget : Budget) :
    Except DecisionError Layout :=
  let found := positions marker rendered
  match rendered, found.head?, found.getLast? with
  | cls :: _, some first, some last =>
    if found.length ≠ nOptions ∨ first < 2 ∨ rendered[first - 1]? ≠ some sep
        ∨ rendered.getLast? ≠ some sep then .error .layout
    else
      let headEnd := first - 1
      let optsEnd := match (rendered.drop last).findIdx? (· = sep) with
        | none => rendered.length
        | some offset => last + offset
      if rendered.length ≤ optsEnd + 1 then .error .layout
      else
        let options := found.zipWith (fun start stop => (rendered.take stop).drop start)
          (found.tail ++ [optsEnd])
        let (options, nQuestionMax) := cutHead budget options
        let head := cls :: (rendered.take (min headEnd (nQuestionMax + 1))).drop 1 ++ [sep]
        let (placed, markers) := placeOptions head.length options
        .ok { tokens := head ++ placed ++ rendered.drop optsEnd, markers }
  | _, _, _ => .error .layout

/-! ### Positions -/

variable {marker sep cls : Token} {budget : Budget}

theorem positionsFrom_append (start : ℕ) (l l' : List Token) :
    positionsFrom marker start (l ++ l') =
      positionsFrom marker start l ++ positionsFrom marker (start + l.length) l' := by
  unfold positionsFrom
  rw [zipIdx_append, filterMap_append]

theorem positionsFrom_cons (start : ℕ) (token : Token) (l : List Token) :
    positionsFrom marker start (token :: l) =
      if token = marker then start :: positionsFrom marker (start + 1) l
      else positionsFrom marker (start + 1) l := by
  unfold positionsFrom
  by_cases h : token = marker
  · simp [zipIdx_cons, h]
  · simp [zipIdx_cons, h]

theorem positionsFrom_of_notMem {start : ℕ} {l : List Token} (h : marker ∉ l) :
    positionsFrom marker start l = [] := by
  induction l generalizing start with
  | nil => rfl
  | cons token l ih =>
    rw [mem_cons, not_or] at h
    rw [positionsFrom_cons, if_neg (Ne.symm h.1), ih h.2]

/-- The options behind their markers, one after another. -/
def marked (marker : Token) (options : List (List Token)) : List Token :=
  options.flatMap (marker :: ·)

/-- Where the options stand. -/
def starts : ℕ → List (List Token) → List ℕ
  | _, [] => []
  | start, option :: options => start :: starts (start + 1 + option.length) options

theorem length_starts (start : ℕ) (options : List (List Token)) :
    (starts start options).length = options.length := by
  induction options generalizing start with
  | nil => rfl
  | cons option options ih => simp [starts, ih]

theorem positionsFrom_marked {start : ℕ} {options : List (List Token)}
    (h : ∀ option ∈ options, marker ∉ option) :
    positionsFrom marker start (marked marker options) = starts start options := by
  induction options generalizing start with
  | nil => rfl
  | cons option options ih =>
    rw [forall_mem_cons] at h
    rw [marked, flatMap_cons, cons_append, positionsFrom_cons, if_pos rfl,
      positionsFrom_append, positionsFrom_of_notMem h.1, nil_append, starts]
    exact congrArg _ (ih h.2)

/-- Every list is a text without markers and options behind their markers. -/
theorem exists_marked (marker : Token) (l : List Token) : ∃ text options,
    l = text ++ marked marker options ∧ marker ∉ text ∧ ∀ option ∈ options, marker ∉ option := by
  induction l with
  | nil => exact ⟨[], [], rfl, not_mem_nil, nofun⟩
  | cons token l ih =>
    obtain ⟨text, options, rfl, htext, hoptions⟩ := ih
    by_cases heq : token = marker
    · subst heq
      exact ⟨[], text :: options, rfl, not_mem_nil, forall_mem_cons.mpr ⟨htext, hoptions⟩⟩
    · refine ⟨token :: text, options, rfl, fun hmem => ?_, hoptions⟩
      exact (mem_cons.mp hmem).elim (fun h => heq h.symm) htext

/-- The stretches between the markers, up to `stop`, are the options. -/
theorem slices_marked (options : List (List Token)) : ∀ {before : List Token} {rest : List Token},
    (starts before.length options).zipWith
        (fun start stop => ((before ++ marked marker options ++ rest).take stop).drop start)
        ((starts before.length options).tail
          ++ [(before ++ marked marker options).length]) = options.map (marker :: ·) := by
  induction options with
  | nil => intros; rfl
  | cons option options ih =>
    intro before rest
    have hmarked : before ++ marked marker (option :: options) =
        (before ++ marker :: option) ++ marked marker options := by
      simp [marked]
    have hlength : before.length + 1 + option.length = (before ++ marker :: option).length := by
      simp
      omega
    rw [hmarked, starts, hlength, tail_cons, map_cons]
    cases options with
    | nil =>
      simp only [starts, nil_append, zipWith_cons_cons, zipWith_nil_left, map_nil]
      rw [show marked marker [] = [] from rfl, append_nil, take_left, drop_left]
    | cons next options =>
      rw [starts, cons_append, zipWith_cons_cons]
      have hstep := @ih (before ++ marker :: option) rest
      rw [starts, tail_cons] at hstep
      congr 1
      rw [append_assoc (before ++ marker :: option), take_left, drop_left]

/-! ### The shape of a prompt -/

/-- A prompt of a marker readout: a question that holds no marker, options behind their markers,
the last of which holds no separator, and at least one token after the separator that closes the
options. -/
@[ext]
structure Prompt (marker sep : Token) where
  cls : Token
  question : List Token
  options : List (List Token)
  /-- What follows the separator that closes the options. -/
  state : List Token
  marker_ne : marker ≠ sep
  cls_ne : cls ≠ marker
  options_ne : options ≠ []
  unmarked : ∀ option ∈ options, marker ∉ option
  last : ∀ option, options.getLast? = some option → sep ∉ option
  question_unmarked : marker ∉ question
  state_unmarked : marker ∉ state
  closed : state.getLast? = some sep

namespace Prompt

/-- The tokens before the first marker. -/
def head (p : Prompt marker sep) : List Token := p.cls :: p.question ++ [sep]

/-- The separator that closes the options, and everything after it. -/
def tail (p : Prompt marker sep) : List Token := sep :: p.state

def tokens (p : Prompt marker sep) : List Token :=
  p.head ++ marked marker p.options ++ p.tail

/-- How the prompt is evaluated. -/
def layout (p : Prompt marker sep) : Layout where
  tokens := p.tokens
  markers := starts p.head.length p.options

theorem head_unmarked (p : Prompt marker sep) : marker ∉ p.head := by
  simp [head, p.cls_ne.symm, p.question_unmarked, p.marker_ne]

theorem tail_unmarked (p : Prompt marker sep) : marker ∉ p.tail := by
  simp [tail, p.marker_ne, p.state_unmarked]

/-- The markers of a prompt stand where its options begin. -/
theorem positions_tokens (p : Prompt marker sep) :
    positions marker p.tokens = starts p.head.length p.options := by
  rw [positions, tokens, positionsFrom_append, positionsFrom_append,
    positionsFrom_of_notMem p.head_unmarked, positionsFrom_marked p.unmarked,
    positionsFrom_of_notMem p.tail_unmarked, nil_append, append_nil, Nat.zero_add]

end Prompt

/-- The last option starts at the last position. -/
theorem drop_getLast_starts {options : List (List Token)} : ∀ {before : List Token} {last : ℕ}
    {rest : List Token}, (starts before.length options).getLast? = some last →
    ∃ option, options.getLast? = some option ∧
      (before ++ marked marker options ++ rest).drop last = marker :: option ++ rest ∧
      last + 1 + option.length = (before ++ marked marker options).length := by
  induction options with
  | nil => exact fun h => by cases h
  | cons option options ih =>
    intro before last rest h
    have hmarked : before ++ marked marker (option :: options) =
        (before ++ marker :: option) ++ marked marker options := by
      simp [marked]
    have hlength : before.length + 1 + option.length = (before ++ marker :: option).length := by
      simp
      omega
    rw [hmarked]
    rw [starts, hlength] at h
    cases options with
    | nil =>
      obtain rfl : before.length = last := by simpa [starts] using h
      refine ⟨option, rfl, ?_, ?_⟩
      · rw [show marked marker [] = [] from rfl, append_nil, append_assoc, drop_left]
      · rw [show marked marker [] = [] from rfl, append_nil, hlength]
    | cons next options =>
      rw [getLast?_cons_of_ne_nil (by simp [starts])] at h
      obtain ⟨final, hfinal, hdrop, hlast⟩ := ih h
      exact ⟨final, by rw [getLast?_cons_cons, hfinal], hdrop, hlast⟩

/-- An option stands where it starts. -/
theorem prefix_drop_starts {rest : List Token} {i start : ℕ} {option : List Token}
    {options : List (List Token)} : ∀ {before : List Token}, options[i]? = some option →
      (starts before.length options)[i]? = some start →
      marker :: option <+: (before ++ marked marker options ++ rest).drop start := by
  induction options generalizing i with
  | nil => exact fun h => by cases h
  | cons first options ih =>
    intro before hoption hstart
    cases i with
    | zero =>
      obtain rfl : first = option := Option.some.inj hoption
      obtain rfl : before.length = start := Option.some.inj hstart
      rw [append_assoc, drop_left, marked, flatMap_cons, append_assoc]
      exact prefix_append ..
    | succ i =>
      have hmarked : before ++ marked marker (first :: options) =
          (before ++ marker :: first) ++ marked marker options := by
        simp [marked]
      rw [hmarked]
      refine ih hoption ?_
      rw [starts, getElem?_cons_succ] at hstart
      rw [← hstart, length_append, length_cons]
      congr 2
      omega

/-! ### Cutting -/

/-- How many tokens of each option are kept, its marker counted. -/
def optionLimit (budget : Budget) (options : List (List Token)) : ℕ :=
  let most := budget.maxOptionTokens + 1
  if budget.maxHeadTokens < ((options.map (List.take most)).map List.length).sum + questionReserve
  then min most (max ((budget.maxHeadTokens - min budget.maxHeadTokens questionReserve)
    / options.length) minOptionTokens)
  else most

theorem one_le_optionLimit (options : List (List Token)) : 1 ≤ optionLimit budget options := by
  unfold optionLimit minOptionTokens
  dsimp only
  split_ifs <;> omega

theorem cutHead_fst (options : List (List Token)) :
    (cutHead budget options).1 = options.map (List.take (optionLimit budget options)) := by
  unfold cutHead cutTo optionLimit
  dsimp only
  split_ifs
  · rw [map_map, length_map]
    refine map_congr_left fun option _ => ?_
    rw [Function.comp, take_take, Nat.min_comm]
  · rfl

theorem cutHead_snd (options : List (List Token)) :
    (cutHead budget options).2 = max minQuestionTokens (budget.maxHeadTokens
      - min budget.maxHeadTokens ((cutHead budget options).1.map List.length).sum) := by
  unfold cutHead cutTo
  dsimp only
  split_ifs <;> rfl

/-- Options cut to their limit get no smaller limit. -/
theorem optionLimit_le (options : List (List Token)) : optionLimit budget options ≤
    optionLimit budget (options.map (List.take (optionLimit budget options))) := by
  by_cases hshrink : budget.maxHeadTokens < ((options.map
      (List.take (budget.maxOptionTokens + 1))).map List.length).sum + questionReserve
  · -- the limit is that of even shares, and the shares of as many options are the same
    have hlimit : optionLimit budget options = min (budget.maxOptionTokens + 1)
        (max ((budget.maxHeadTokens - min budget.maxHeadTokens questionReserve)
          / options.length) minOptionTokens) := if_pos hshrink
    rw [optionLimit.eq_1 budget (options.map _), length_map]
    split_ifs
    · exact Nat.le_of_eq hlimit
    · exact hlimit ▸ Nat.min_le_left ..
  · -- the options fit, and so do the cut options
    have hlimit : optionLimit budget options = budget.maxOptionTokens + 1 := if_neg hshrink
    have hcut : (options.map (List.take (budget.maxOptionTokens + 1))).map
        (List.take (budget.maxOptionTokens + 1)) =
        options.map (List.take (budget.maxOptionTokens + 1)) := by
      rw [map_map]
      refine map_congr_left fun option _ => ?_
      rw [Function.comp, take_take, Nat.min_self]
    rw [hlimit]
    exact Nat.le_of_eq (if_neg (hcut.symm ▸ hshrink)).symm

/-- Cutting cut options changes nothing. -/
theorem cutHead_cutHead (options : List (List Token)) :
    cutHead budget (cutHead budget options).1 = cutHead budget options := by
  have hfst : (cutHead budget (cutHead budget options).1).1 = (cutHead budget options).1 := by
    rw [cutHead_fst, cutHead_fst, map_map]
    refine map_congr_left fun option _ => ?_
    rw [Function.comp, take_take, Nat.min_eq_right (optionLimit_le options)]
  exact Prod.ext hfst (by rw [cutHead_snd, hfst, ← cutHead_snd])

/-- The cut question and options take no more than the budget, unless both are at their floors. -/
theorem cutHead_bound (options : List (List Token)) :
    ((cutHead budget options).1.map List.length).sum + (cutHead budget options).2
      ≤ budget.maxHeadTokens ∨
    (∀ option ∈ (cutHead budget options).1, option.length ≤ minOptionTokens) ∧
      (cutHead budget options).2 = minQuestionTokens := by
  by_cases hshrink : budget.maxHeadTokens < ((options.map
      (List.take (budget.maxOptionTokens + 1))).map List.length).sum + questionReserve
  · have hlimit : optionLimit budget options = min (budget.maxOptionTokens + 1)
        (max ((budget.maxHeadTokens - min budget.maxHeadTokens questionReserve)
          / options.length) minOptionTokens) := if_pos hshrink
    have hoption : ∀ option ∈ (cutHead budget options).1,
        option.length ≤ max ((budget.maxHeadTokens - min budget.maxHeadTokens questionReserve)
          / options.length) minOptionTokens := by
      intro option hoption
      rw [cutHead_fst, mem_map] at hoption
      obtain ⟨whole, -, rfl⟩ := hoption
      rw [length_take, hlimit]
      omega
    have hlength : (cutHead budget options).1.length = options.length := by
      rw [cutHead_fst, length_map]
    rw [cutHead_snd]
    generalize (cutHead budget options).1 = kept at *
    rcases Nat.lt_or_ge ((budget.maxHeadTokens - min budget.maxHeadTokens questionReserve)
        / options.length) minOptionTokens with heach | heach
    · -- the floor of an option decides
      rw [Nat.max_eq_right heach.le] at hoption
      rcases Nat.lt_or_ge minQuestionTokens
          (budget.maxHeadTokens - min budget.maxHeadTokens (kept.map List.length).sum) with hq | hq
      · left
        omega
      · exact .inr ⟨hoption, Nat.max_eq_left hq⟩
    · -- even shares leave the reserve of the question
      rw [Nat.max_eq_left heach] at hoption
      have hsum : (kept.map List.length).sum ≤ kept.length *
          ((budget.maxHeadTokens - min budget.maxHeadTokens questionReserve) / options.length) := by
        simpa using sum_le_card_nsmul (kept.map List.length) _ (by simpa using hoption)
      have hshare := Nat.mul_div_le
        (budget.maxHeadTokens - min budget.maxHeadTokens questionReserve) options.length
      have hpos : 0 < (budget.maxHeadTokens - min budget.maxHeadTokens questionReserve)
          / options.length := lt_of_lt_of_le (by decide) heach
      have hreserve : 0 < budget.maxHeadTokens - min budget.maxHeadTokens questionReserve :=
        Nat.pos_of_div_pos hpos
      rw [hlength] at hsum
      have htotal := hsum.trans hshare
      left
      unfold questionReserve minQuestionTokens at *
      omega
  · left
    have htaken : (cutHead budget options).1 = options.map
        (List.take (budget.maxOptionTokens + 1)) := by
      rw [cutHead_fst, show optionLimit budget options = _ from if_neg hshrink]
    rw [cutHead_snd, htaken]
    unfold questionReserve at hshrink
    unfold minQuestionTokens
    omega

/-! ### The cut prompt -/

namespace Prompt

/-- The options with their markers. -/
def whole (p : Prompt marker sep) : List (List Token) := p.options.map (marker :: ·)

/-- The prompt with the question and the options that are kept. -/
def cut (budget : Budget) (p : Prompt marker sep) : Prompt marker sep where
  cls := p.cls
  question := p.question.take (cutHead budget p.whole).2
  options := p.options.map (List.take (optionLimit budget p.whole - 1))
  state := p.state
  marker_ne := p.marker_ne
  cls_ne := p.cls_ne
  options_ne := by simpa using p.options_ne
  unmarked := by
    simp only [List.mem_map, forall_exists_index, and_imp]
    rintro _ option hoption rfl hmem
    exact p.unmarked option hoption (List.mem_of_mem_take hmem)
  last := by
    intro kept hkept hmem
    rw [List.getLast?_map, Option.map_eq_some_iff] at hkept
    obtain ⟨option, hoption, rfl⟩ := hkept
    exact p.last option hoption (List.mem_of_mem_take hmem)
  question_unmarked := fun hmem => p.question_unmarked (List.mem_of_mem_take hmem)
  state_unmarked := p.state_unmarked
  closed := p.closed

theorem whole_cut (p : Prompt marker sep) : (p.cut budget).whole = (cutHead budget p.whole).1 := by
  obtain ⟨limit, hlimit⟩ := Nat.exists_eq_add_of_le' (one_le_optionLimit p.whole)
  have hoptions : (p.cut budget).options = p.options.map (List.take limit) := by
    show p.options.map (List.take (optionLimit budget p.whole - 1)) = _
    rw [hlimit, Nat.add_sub_cancel]
  rw [whole, hoptions, cutHead_fst, hlimit, whole, map_map, map_map]
  rfl

/-- A cut prompt is not cut again. -/
theorem cut_cut (p : Prompt marker sep) : (p.cut budget).cut budget = p.cut budget := by
  have hquestion : (p.cut budget).question.take (cutHead budget (p.cut budget).whole).2 =
      (p.cut budget).question := by
    rw [whole_cut, cutHead_cutHead, cut, take_take, Nat.min_self]
  have hwhole : ((p.cut budget).cut budget).whole = (p.cut budget).whole := by
    rw [whole_cut, whole_cut, cutHead_cutHead]
  have hoptions : ((p.cut budget).cut budget).options = (p.cut budget).options :=
    map_injective_iff.mpr (fun _ _ h => (cons.inj h).2) hwhole
  exact Prompt.ext rfl hquestion hoptions rfl

theorem placeOptions_whole (start : ℕ) (options : List (List Token)) :
    placeOptions start (options.map (marker :: ·)) = (marked marker options, starts start options) := by
  induction options generalizing start with
  | nil => rfl
  | cons option options ih =>
    rw [map_cons, placeOptions, ih, length_cons, Nat.add_comm option.length,
      ← Nat.add_assoc]
    rfl

/-- The kept part of the question. -/
theorem take_question (cls : Token) (question rest : List Token) (n : ℕ) :
    ((cls :: question ++ rest).take (min (question.length + 1) (n + 1))).drop 1 =
      question.take n := by
  rw [Nat.add_min_add_right, cons_append, take_succ_cons, drop_succ_cons,
    drop_zero, take_append_of_le_length (Nat.min_le_left ..), Nat.min_comm,
    ← take_eq_take_min]

/-- The closing separator is the first one behind the last marker. -/
theorem findIdx_sep {l : List Token} (h : sep ∉ l) (rest : List Token) :
    (l ++ sep :: rest).findIdx? (· = sep) = some l.length := by
  induction l with
  | nil => simp [findIdx?_cons]
  | cons token l ih =>
    rw [mem_cons, not_or] at h
    rw [cons_append, findIdx?_cons, if_neg (by simpa using Ne.symm h.1), ih h.2]
    rfl

/-- A prompt is accepted, and what is evaluated is the cut prompt. -/
theorem arrange_tokens (p : Prompt marker sep) :
    arrange p.tokens p.options.length marker sep budget = .ok (p.cut budget).layout := by
  have hfirst : (starts p.head.length p.options).head? = some p.head.length := by
    cases hoptions : p.options with
    | nil => exact absurd hoptions p.options_ne
    | cons option options => rfl
  obtain ⟨last, hlast⟩ : ∃ last, (starts p.head.length p.options).getLast? = some last :=
    ⟨_, getLast?_eq_some_getLast (ne_nil_of_mem (mem_of_head? hfirst))⟩
  obtain ⟨option, hoption, hdrop, hstop⟩ :=
    drop_getLast_starts hlast
  have hheadLength : p.head.length = p.question.length + 2 := by simp [head]
  have hsep : p.tokens[p.question.length + 1]? = some sep := by
    simp [tokens, head]
  have hclosed : p.tokens.getLast? = some sep := by
    simp [tokens, tail, getLast?_cons, p.closed]
  have hend : (p.tokens.drop last).findIdx? (· = sep) = some (1 + option.length) := by
    rw [tokens, hdrop, tail, findIdx_sep, length_cons, Nat.add_comm]
    rw [mem_cons, not_or]
    exact ⟨p.marker_ne.symm, p.last option hoption⟩
  have hstop' : last + (1 + option.length) = (p.head ++ marked marker p.options).length := by
    rw [← hstop, Nat.add_assoc]
  have hslices : (starts p.head.length p.options).zipWith
      (fun start stop => (p.tokens.take stop).drop start)
      ((starts p.head.length p.options).tail ++ [(p.head ++ marked marker p.options).length]) =
      p.whole := slices_marked p.options
  have hquestion : (p.tokens.take (min (p.head.length - 1) ((cutHead budget p.whole).2 + 1))).drop 1
      = (p.cut budget).question := by
    rw [hheadLength, tokens, head, append_assoc, append_assoc]
    exact take_question ..
  have hplaced (start : ℕ) : placeOptions start (cutHead budget p.whole).1 =
      (marked marker (p.cut budget).options, starts start (p.cut budget).options) := by
    rw [← whole_cut]
    exact placeOptions_whole ..
  have htail : p.tokens.drop (p.head ++ marked marker p.options).length = sep :: p.state :=
    drop_left
  have hroom : ¬ p.tokens.length ≤ (p.head ++ marked marker p.options).length + 1 := by
    have hstate : 0 < p.state.length := length_pos_of_mem (mem_of_getLast? p.closed)
    rw [tokens, length_append, tail, length_cons]
    omega
  unfold arrange
  rw [p.positions_tokens]
  dsimp only
  split
  next found cls rest first last' htokens hfirst' hlast' =>
    obtain rfl : p.head.length = first := Option.some.inj (hfirst.symm.trans hfirst')
    obtain rfl : last = last' := Option.some.inj (hlast.symm.trans hlast')
    rw [if_neg (by simp [length_starts, hheadLength, hsep, hclosed])]
    obtain rfl : p.cls = cls := (cons.inj htokens).1
    simp only [hend, hstop', hslices, hquestion, hplaced, htail, if_neg hroom]
    rfl
  next hnone =>
    exact absurd hlast (hnone _ _ _ _ rfl hfirst)

/-- Only prompts are accepted. -/
theorem of_arrange {rendered : List Token} {nOptions : ℕ} {layout : Layout}
    (h : arrange rendered nOptions marker sep budget = .ok layout) :
    ∃ p : Prompt marker sep, rendered = p.tokens ∧ p.options.length = nOptions := by
  obtain ⟨text, options, rfl, htext, hoptions⟩ := exists_marked marker rendered
  have hfound : positions marker (text ++ marked marker options) = starts text.length options := by
    rw [positions, positionsFrom_append, positionsFrom_of_notMem htext,
      positionsFrom_marked hoptions, nil_append, Nat.zero_add]
  unfold arrange at h
  rw [hfound] at h
  dsimp only at h
  split at h
  next cls rest first last htokens hfirst hlast =>
    split_ifs at h with hshape hroom
    simp only [not_or, not_not, Nat.not_lt] at hshape
    obtain ⟨hcount, htwo, hsep, hclosed⟩ := hshape
    obtain rfl : text.length = first := by
      cases options with
      | nil => cases hfirst
      | cons option options => exact Option.some.inj hfirst
    -- the text before the first marker is a token, the question and a separator
    obtain ⟨question, rfl⟩ : ∃ question, text = cls :: question ++ [sep] := by
      rw [getElem?_append_left (by omega), ← getLast?_eq_getElem?,
        getLast?_eq_some_iff] at hsep
      obtain ⟨init, rfl⟩ := hsep
      cases init with
      | nil => exact absurd htwo (by simp)
      | cons token question =>
        obtain rfl : token = cls := (cons.inj htokens).1
        exact ⟨question, rfl⟩
    have hne : marker ≠ sep := fun heq => htext (by simp [heq])
    obtain ⟨final, hfinal, hdrop, hstop⟩ :=
      @drop_getLast_starts marker options _ last [] hlast
    simp only [append_nil] at hdrop
    obtain ⟨init, rfl⟩ : ∃ init, options = init ++ [final] :=
      getLast?_eq_some_iff.mp hfinal
    by_cases hmem : sep ∈ final
    · obtain ⟨kept, state, rfl, hkept⟩ := eq_append_cons_of_mem hmem
      -- the separator behind the last marker closes the options
      have hend : ((cls :: question ++ [sep] ++
          marked marker (init ++ [kept ++ sep :: state])).drop last).findIdx? (· = sep) =
          some (1 + kept.length) := by
        rw [hdrop, ← cons_append, findIdx_sep, length_cons, Nat.add_comm]
        simp [hne.symm, hkept]
      have htokens : cls :: question ++ [sep] ++ marked marker (init ++ [kept ++ sep :: state]) =
          cls :: question ++ [sep] ++ marked marker (init ++ [kept]) ++ sep :: state := by
        simp [marked]
      have hstate : state ≠ [] := by
        rintro rfl
        rw [hend] at hroom
        change ¬ _ ≤ last + (1 + kept.length) + 1 at hroom
        simp only [htokens, length_append, length_cons, length_nil] at hroom hstop
        omega
      have hinit : ∀ option ∈ init, marker ∉ option := fun option hoption =>
        hoptions option (mem_append_left _ hoption)
      have hlastOption : marker ∉ kept ++ sep :: state := hoptions _ mem_concat_self
      simp only [mem_append, mem_cons, not_or, not_mem_nil] at htext hlastOption
      refine ⟨{
        cls, question, state
        options := init ++ [kept]
        marker_ne := hne
        cls_ne := Ne.symm htext.1.1
        options_ne := by simp
        unmarked := by simpa [or_imp, forall_and] using ⟨hinit, hlastOption.1⟩
        last := by simpa using hkept
        question_unmarked := htext.1.2
        state_unmarked := hlastOption.2.2
        closed := by
          rw [htokens, getLast?_append, getLast?_cons_of_ne_nil hstate] at hclosed
          rwa [getLast?_eq_some_getLast hstate] at hclosed ⊢ }, htokens, ?_⟩
      rw [length_starts] at hcount
      rw [← hcount, length_append, length_append]
      rfl
    · refine absurd ?_ hroom
      have hend : ((cls :: question ++ [sep] ++ marked marker (init ++ [final])).drop last).findIdx?
          (· = sep) = none := by
        rw [hdrop, findIdx?_eq_none_iff]
        rintro token htoken
        rcases mem_cons.mp htoken with rfl | htoken
        · simpa using hne
        · simpa using ne_of_mem_of_not_mem htoken hmem
      rw [hend]
      exact Nat.le_succ _
  next => cases h

end Prompt

/-- What is accepted is a prompt, and what is evaluated is that prompt **with a shorter question
and shorter options**: every option is read at its own marker, the state is whole, the head stays
within its budget unless question and options are at their floors, and nothing is left to cut. -/
theorem arrange_reads {rendered : List Token} {nOptions : ℕ} {layout : Layout}
    (h : arrange rendered nOptions marker sep budget = .ok layout) :
    ∃ p kept : Prompt marker sep, rendered = p.tokens ∧ layout.tokens = kept.tokens ∧
      kept.cls = p.cls ∧ kept.question <+: p.question ∧
      kept.options.Forall₂ (· <+: ·) p.options ∧ kept.state = p.state ∧
      layout.markers = positions marker layout.tokens ∧ layout.markers.length = nOptions ∧
      p.options.length = nOptions ∧
      (∀ (i start : ℕ) (option : List Token), kept.options[i]? = some option →
        layout.markers[i]? = some start →
        marker :: option <+: layout.tokens.drop start) ∧
      (kept.question.length + (kept.whole.map List.length).sum ≤ budget.maxHeadTokens ∨
        (∀ option ∈ kept.whole, option.length ≤ minOptionTokens) ∧
          kept.question.length ≤ minQuestionTokens) ∧
      arrange layout.tokens nOptions marker sep budget = .ok layout := by
  obtain ⟨p, rfl, rfl⟩ := Prompt.of_arrange h
  obtain rfl : (p.cut budget).layout = layout := Except.ok.inj (p.arrange_tokens.symm.trans h)
  have hlength : (p.cut budget).options.length = p.options.length := List.length_map ..
  have hagain : arrange (p.cut budget).tokens (p.cut budget).options.length marker sep budget =
      .ok ((p.cut budget).cut budget).layout := (p.cut budget).arrange_tokens
  rw [p.cut_cut, hlength] at hagain
  refine ⟨p, p.cut budget, rfl, rfl, rfl, List.take_prefix .., ?_, rfl,
    (p.cut budget).positions_tokens.symm, (length_starts ..).trans hlength, rfl, ?_, ?_, hagain⟩
  · exact List.forall₂_map_left_iff.mpr (List.forall₂_same.mpr fun option _ => List.take_prefix ..)
  · intro i start option hoption hstart
    exact prefix_drop_starts hoption hstart
  · have hquestion : (p.cut budget).question.length ≤ (cutHead budget p.whole).2 :=
      List.length_take_le ..
    rw [p.whole_cut]
    rcases @cutHead_bound budget p.whole with hbound | ⟨hoptions, hfloor⟩
    · left
      omega
    · exact .inr ⟨hoptions, hfloor ▸ hquestion⟩

/-- Ten question tokens and an option of six are cut to eight and three for a head of one token. -/
theorem arrange_reads_floors :
    arrange ([1000] ++ List.replicate 10 7 ++ [1, 4, 10, 11, 12, 13, 14, 15, 1, 20, 1]) 1 4 1
        ⟨1, maxOptionTokens, by decide⟩ =
      .ok { tokens := [1000] ++ List.replicate 8 7 ++ [1, 4, 10, 11, 12, 1, 20, 1]
            markers := [10] } ∧
    ∃ p kept : Prompt 4 1, p.tokens = [1000] ++ List.replicate 10 7 ++
        [1, 4, 10, 11, 12, 13, 14, 15, 1, 20, 1] ∧
      kept.tokens = [1000] ++ List.replicate 8 7 ++ [1, 4, 10, 11, 12, 1, 20, 1] ∧
      kept.options.Forall₂ (· <+: ·) p.options ∧ kept.state = p.state := by
  have h : arrange ([1000] ++ List.replicate 10 7 ++ [1, 4, 10, 11, 12, 13, 14, 15, 1, 20, 1]) 1 4 1
      ⟨1, maxOptionTokens, by decide⟩ =
      .ok { tokens := [1000] ++ List.replicate 8 7 ++ [1, 4, 10, 11, 12, 1, 20, 1]
            markers := [10] } := by
    decide
  obtain ⟨p, kept, hrendered, htokens, -, -, hoptions, hstate, -⟩ := arrange_reads h
  exact ⟨h, p, kept, hrendered.symm, htokens.symm, hoptions, hstate⟩

end Retrograd.Decision
