import Retrograd.Decision.Laya
import Retrograd.Logic.Except
import Mathlib.Data.List.SplitLengths
import Mathlib.Data.List.Pairwise
import Mathlib.Data.List.Nodup

/-!
# The labels of a d1 question

The options of a question are read as groups of tokens, the single-token spellings of a label each.
The labels of a choice are taken **greedily**: a code that is not a single token of its own is
replaced by the first entry of a pool that is. What is remembered is the token of the plain
spelling; the spaced spelling joins the group afterwards, whatever token it is.

A tokenizer is any function from texts to tokens.
-/

namespace Retrograd.Decision.D1

open Logic List

/-! ### Labels -/

inductive QuestionKind where
  | choice
  | score
  | noul
  deriving DecidableEq, Repr

/-- A question by the keys of its options: the members of an object, the levels of a scale, or
`false` and `true`, so no key twice. -/
structure Question where
  kind : QuestionKind
  options : List String
  nodup : options.Nodup

/-- The codes of a choice of more than 26 options whose keys are not letters. -/
inductive D1Codes where
  | digits
  | letters
  deriving DecidableEq, Repr

/-- The labels of one question. -/
structure QuestionLabels where
  texts : List String := []
  /-- The tokens whose logits are read, a group of consecutive ones per score. -/
  tokens : List Token := []
  /-- The number of tokens of each score. -/
  groups : List ℕ := []
  deriving DecidableEq, Repr

def QuestionLabels.push (labels : QuestionLabels) (text : String) (group : List Token) :
    QuestionLabels where
  texts := labels.texts ++ [text]
  tokens := labels.tokens ++ group
  groups := labels.groups ++ [group.length]

/-- The groups of tokens. -/
def QuestionLabels.split (labels : QuestionLabels) : List (List Token) :=
  labels.groups.splitLengths labels.tokens

abbrev Tokenizer := String → List Token

/-- The token of a tokenization that is one token. -/
def single : List Token → Option Token
  | [token] => some token
  | _ => none

/-- The tokens among the tokenizations of some forms that are a single token, each once. -/
def singleTokens (tokenize : Tokenizer) (forms : List String) : List Token :=
  forms.foldl (fun out form =>
    ((single (tokenize form)).map fun token => if token ∈ out then out else out ++ [token]).getD out)
    []

/-- The spellings of a label. -/
def spellings (kind : QuestionKind) (text : String) : List String :=
  match kind with
  | .choice => [text, " " ++ text]
  | .score => [text]
  | .noul => if text = "true" then ["yes", "Yes", "YES"] else ["no", "No", "NO"]

/-- A capital letter. The offset is narrowed to a byte. -/
def letter (i : ℕ) : String := String.singleton (Char.ofNat ((65 + i) % 256))

/-- `{i:02}`. -/
def twoDigits (i : ℕ) : String := if i < 10 then "0" ++ toString i else toString i

def isLetter (key : String) : Bool :=
  match key.toList with
  | [c] => c.isAlpha
  | _ => false

/-- The codes of a choice, in option order. -/
def codes (longCodes : D1Codes) (options : List String) : List String :=
  let nOptions := options.length
  let isLetters := options.all isLetter
  options.mapIdx fun i key =>
    if isLetters then key
    else if nOptions ≤ 26 ∨ (i < 26 ∧ longCodes = .letters) then letter i
    else if longCodes = .letters then letter ((i - 26) / 26) ++ letter ((i - 26) % 26)
    else twoDigits i

/-- What replaces a code that cannot be taken. -/
def pool : List String :=
  (List.range 26).map letter ++ (List.range 100).map twoDigits
    ++ (List.range 26).map (fun i => String.singleton (Char.ofNat (97 + i)))
    ++ (List.range 200).map (fun i => "#" ++ toString i)
    ++ (List.range 26).flatMap fun a => (List.range 26).map fun b => letter a ++ letter b

/-- Takes a code that is a single token nothing else has. -/
def take (tokenize : Tokenizer) (state : List Token × QuestionLabels) (code : String) :
    Option (List Token × QuestionLabels) :=
  (single (tokenize code)).bind fun token =>
    if token ∈ state.1 then none
    else
      let group := token :: (singleTokens tokenize [" " ++ code]).filter (· ≠ token)
      some (state.1 ++ [token], state.2.push code group)

/-- The labels of a scale, level by level. -/
def scaleLabels (kind : QuestionKind) (tokenize : Tokenizer) (labels : QuestionLabels)
    (key : String) : Except DecisionError QuestionLabels :=
  let group := singleTokens tokenize (spellings kind key)
  if group = [] then .error (.invalidModel ("decision label is not a single token: " ++ key))
  else .ok (labels.push key group)

/-- The label of one option of a choice. -/
def choiceLabel (nOptions : ℕ) (tokenize : Tokenizer) (state : List Token × QuestionLabels)
    (code : String) : Except DecisionError (List Token × QuestionLabels) :=
  match (take tokenize state code).or (pool.findSome? (take tokenize state)) with
  | some state => .ok state
  | none => .error (.invalidRequest
      ("no single-token label left for " ++ toString nOptions ++ " options"))

/-- The labels of a question. -/
def d1Labels (question : Question) (longCodes : D1Codes) (tokenize : Tokenizer) :
    Except DecisionError QuestionLabels :=
  if question.kind ≠ .choice then
    question.options.foldlM (scaleLabels question.kind tokenize) {}
  else do
    let taken ← (codes longCodes question.options).foldlM
      (choiceLabel question.options.length tokenize) ([], {})
    .ok taken.2

/-! ### Spellings -/

variable {tokenize : Tokenizer} {question : Question} {longCodes : D1Codes} {token : Token}
  {text : String} {labels : QuestionLabels}

theorem single_eq_some_iff {tokens : List Token} : single tokens = some token ↔ tokens = [token] := by
  rcases tokens with _ | ⟨first, _ | ⟨second, rest⟩⟩
  · exact ⟨fun h => (Option.some_ne_none _ h.symm).elim, fun h => (cons_ne_nil _ _ h.symm).elim⟩
  · rw [single, Option.some.injEq, singleton_inj]
  · exact ⟨fun h => (Option.some_ne_none _ h.symm).elim, fun h => by cases h⟩

theorem mem_singleTokens {forms : List String} :
    token ∈ singleTokens tokenize forms ↔ ∃ form ∈ forms, tokenize form = [token] := by
  suffices hfold : ∀ out : List Token, token ∈ forms.foldl (fun out form =>
      ((single (tokenize form)).map fun token =>
        if token ∈ out then out else out ++ [token]).getD out) out ↔
          token ∈ out ∨ ∃ form ∈ forms, tokenize form = [token] by
    rw [singleTokens, hfold, or_iff_right not_mem_nil]
  induction forms with
  | nil => exact fun out => ⟨.inl, fun h => h.resolve_right fun ⟨_, h, _⟩ => not_mem_nil h⟩
  | cons form forms ih =>
    intro out
    rw [foldl_cons, ih, exists_mem_cons_iff, ← or_assoc]
    refine or_congr_left ?_
    rw [← single_eq_some_iff]
    cases single (tokenize form) with
    | none => exact ⟨.inl, fun h => h.resolve_right (Option.some_ne_none _).symm⟩
    | some first =>
      rw [Option.map_some, Option.getD_some, Option.some.injEq]
      by_cases hfirst : first ∈ out
      · rw [if_pos hfirst]
        exact ⟨.inl, fun h => h.elim id fun h => h ▸ hfirst⟩
      · rw [if_neg hfirst, mem_append, mem_singleton, eq_comm (a := token)]

/-! ### The labels as a list -/

/-- Labels by the text and the group of each. -/
def labelsOf (entries : List (String × List Token)) : QuestionLabels where
  texts := entries.map Prod.fst
  tokens := entries.flatMap Prod.snd
  groups := entries.map fun entry => entry.2.length

theorem push_labelsOf (entries : List (String × List Token)) (text : String) (group : List Token) :
    (labelsOf entries).push text group = labelsOf (entries ++ [(text, group)]) := by
  rw [labelsOf, labelsOf, QuestionLabels.push, map_append, map_append, flatMap_append]
  simp

theorem split_labelsOf (entries : List (String × List Token)) :
    (labelsOf entries).split = entries.map Prod.snd := by
  change (entries.map fun entry => entry.2.length).splitLengths (entries.flatMap Prod.snd) = _
  induction entries with
  | nil => rfl
  | cons entry entries ih =>
    rw [map_cons, flatMap_cons, splitLengths_cons, take_left, drop_left,
      ih, map_cons]

theorem sum_groups_labelsOf (entries : List (String × List Token)) :
    (labelsOf entries).groups.sum = (labelsOf entries).tokens.length := by
  rw [labelsOf, length_flatMap]

/-- Groups of single-token spellings of their labels, one for each option. -/
structure Labelled (tokenize : Tokenizer) (question : Question) (labels : QuestionLabels) :
    Prop where
  texts : labels.texts.length = question.options.length
  groups : labels.groups.length = question.options.length
  tokens : labels.groups.sum = labels.tokens.length
  distinct : labels.texts.Nodup
  nonempty : ∀ group ∈ labels.split, group ≠ []
  spelled : ∀ (i : ℕ) text group, labels.texts[i]? = some text → labels.split[i]? = some group →
    ∀ token ∈ group, ∃ form ∈ spellings question.kind text, tokenize form = [token]

theorem labelled_labelsOf {entries : List (String × List Token)}
    (hlength : entries.length = question.options.length)
    (hdistinct : (entries.map Prod.fst).Nodup)
    (hentry : ∀ entry ∈ entries, entry.2 ≠ [] ∧
      ∀ token ∈ entry.2, ∃ form ∈ spellings question.kind entry.1, tokenize form = [token]) :
    Labelled tokenize question (labelsOf entries) where
  texts := by rw [labelsOf, length_map, hlength]
  groups := by rw [labelsOf, length_map, hlength]
  tokens := sum_groups_labelsOf entries
  distinct := hdistinct
  nonempty group hgroup := by
    rw [split_labelsOf] at hgroup
    obtain ⟨entry, hmem, rfl⟩ := mem_map.mp hgroup
    exact (hentry entry hmem).1
  spelled i text group htext hgroup := by
    rw [labelsOf, getElem?_map, Option.map_eq_some_iff] at htext
    obtain ⟨entry, hget, rfl⟩ := htext
    rw [split_labelsOf, getElem?_map, hget] at hgroup
    obtain rfl := Option.some.inj hgroup
    exact (hentry entry (mem_of_getElem? hget)).2

/-- Two lists of spellings have a token in common. -/
def Clash (tokenize : Tokenizer) (forms forms' : List String) : Prop :=
  ∃ token, (∃ form ∈ forms, tokenize form = [token]) ∧ ∃ form ∈ forms', tokenize form = [token]

/-! ### Scales -/

theorem scale_eq {kind : QuestionKind} {keys : List String} {entries : List (String × List Token)}
    (h : keys.foldlM (scaleLabels kind tokenize) (labelsOf entries) = .ok labels) :
    labels = labelsOf (entries ++
        keys.map fun key => (key, singleTokens tokenize (spellings kind key))) ∧
      ∀ key ∈ keys, singleTokens tokenize (spellings kind key) ≠ [] := by
  induction keys generalizing entries with
  | nil =>
    rw [map_nil, append_nil]
    exact ⟨(Except.ok.inj h).symm, fun key hkey => absurd hkey not_mem_nil⟩
  | cons key keys ih =>
    rw [foldlM_cons] at h
    obtain ⟨mid, hmid, h⟩ := ok_of_bind h
    rw [scaleLabels] at hmid
    split_ifs at hmid with hgroup
    rw [← Except.ok.inj hmid, push_labelsOf] at h
    obtain ⟨hlabels, hkeys⟩ := ih h
    rw [append_assoc] at hlabels
    exact ⟨hlabels, forall_mem_cons.mpr ⟨hgroup, hkeys⟩⟩

/-! ### Choices -/

/-- The first of some texts that is a single token nothing taken before has. -/
def firstFree (tokenize : Tokenizer) (used : List Token) (texts : List String) :
    Option (String × Token) :=
  texts.findSome? fun text => (single (tokenize text)).bind fun token =>
    if token ∈ used then none else some (text, token)

/-- The labels of a choice by their plain spellings: each code, or the pool in its place. -/
def chosen (tokenize : Tokenizer) : List String → List Token → Option (List (String × Token))
  | [], _ => some []
  | code :: codes, used => (firstFree tokenize used (code :: pool)).bind fun label =>
    (chosen tokenize codes (used ++ [label.2])).map (label :: ·)

/-- The group of a label of a choice. -/
def groupOf (tokenize : Tokenizer) (label : String × Token) : List Token :=
  label.2 :: (singleTokens tokenize [" " ++ label.1]).filter (· ≠ label.2)

theorem take_eq (state : List Token × QuestionLabels) (code : String) :
    take tokenize state code = (firstFree tokenize state.1 [code]).map fun label =>
      (state.1 ++ [label.2], state.2.push label.1 (groupOf tokenize label)) := by
  rw [take, firstFree, findSome?_singleton]
  cases single (tokenize code) with
  | none => rfl
  | some token =>
    rw [Option.bind_some, Option.bind_some]
    split_ifs <;> rfl

theorem or_pool_eq (state : List Token × QuestionLabels) (code : String) :
    (take tokenize state code).or (pool.findSome? (take tokenize state)) =
      (firstFree tokenize state.1 (code :: pool)).map fun label =>
        (state.1 ++ [label.2], state.2.push label.1 (groupOf tokenize label)) := by
  have hpool (texts : List String) : texts.findSome? (take tokenize state) =
      (firstFree tokenize state.1 texts).map fun label =>
        (state.1 ++ [label.2], state.2.push label.1 (groupOf tokenize label)) := by
    rw [firstFree, map_findSome?]
    refine congrArg (List.findSome? · texts) (funext fun text => ?_)
    rw [take_eq, firstFree, findSome?_singleton]
    rfl
  rw [← hpool, findSome?_cons]
  cases take tokenize state code <;> rfl

/-- A choice is labelled exactly when labels can be chosen. -/
theorem foldlM_choiceLabel {n : ℕ} {codes : List String} {used : List Token}
    {entries : List (String × List Token)} :
    codes.foldlM (choiceLabel n tokenize) (used, labelsOf entries) =
      ((chosen tokenize codes used).map fun labels => (used ++ labels.map Prod.snd,
        labelsOf (entries ++ labels.map fun label => (label.1, groupOf tokenize label)))).elim
        (.error (.invalidRequest ("no single-token label left for " ++ toString n ++ " options")))
        .ok := by
  induction codes generalizing used entries with
  | nil =>
    rw [chosen, Option.map_some, Option.elim_some, map_nil, map_nil, append_nil,
      append_nil]
    rfl
  | cons code codes ih =>
    rw [foldlM_cons, choiceLabel, or_pool_eq, chosen]
    cases hfirst : firstFree tokenize used (code :: pool) with
    | none => rfl
    | some label =>
      rw [Option.bind_some]
      change codes.foldlM (choiceLabel n tokenize) (used ++ [label.2],
        (labelsOf entries).push label.1 (groupOf tokenize label)) = _
      rw [push_labelsOf, ih]
      cases chosen tokenize codes (used ++ [label.2]) with
      | none => rfl
      | some labels =>
        rw [Option.map_some, Option.map_some, Option.map_some, Option.elim_some, Option.elim_some,
          append_assoc, append_assoc]
        rfl

theorem of_firstFree {used : List Token} {texts : List String} {label : String × Token}
    (h : firstFree tokenize used texts = some label) :
    tokenize label.1 = [label.2] ∧ label.2 ∉ used := by
  obtain ⟨text, -, htext⟩ := exists_of_findSome?_eq_some h
  obtain ⟨token, hsingle, htoken⟩ := Option.bind_eq_some_iff.mp htext
  split_ifs at htoken with hused
  obtain rfl := Option.some.inj htoken
  exact ⟨single_eq_some_iff.mp hsingle, hused⟩

theorem of_firstFree_none {used : List Token} {texts : List String}
    (h : firstFree tokenize used texts = none) :
    ∀ text ∈ texts, ∀ token, tokenize text = [token] → token ∈ used := by
  intro text htext token htoken
  have hnone := findSome?_eq_none_iff.mp h text htext
  rw [single_eq_some_iff.mpr htoken, Option.bind_some] at hnone
  split_ifs at hnone with hused
  exact hused

/-- The chosen labels have a plain token of their own each, and none of the tokens used before. -/
theorem of_chosen {codes : List String} {used : List Token} {chosenLabels : List (String × Token)}
    (h : chosen tokenize codes used = some chosenLabels) : chosenLabels.length = codes.length ∧
      (∀ label ∈ chosenLabels, tokenize label.1 = [label.2] ∧ label.2 ∉ used) ∧
      (chosenLabels.map Prod.snd).Nodup := by
  induction codes generalizing used chosenLabels with
  | nil =>
    obtain rfl := Option.some.inj h
    exact ⟨rfl, fun label hlabel => absurd hlabel not_mem_nil, nodup_nil⟩
  | cons code codes ih =>
    rw [chosen] at h
    obtain ⟨label, hlabel, h⟩ := Option.bind_eq_some_iff.mp h
    obtain ⟨rest, hrest, rfl⟩ := Option.map_eq_some_iff.mp h
    obtain ⟨hlength, hlabels, hnodup⟩ := ih hrest
    refine ⟨congrArg Nat.succ hlength, forall_mem_cons.mpr ⟨of_firstFree hlabel, ?_⟩, ?_⟩
    · intro other hother
      exact ⟨(hlabels other hother).1,
        fun hused => (hlabels other hother).2 (mem_append_left _ hused)⟩
    · rw [map_cons, nodup_cons]
      refine ⟨fun hmem => ?_, hnodup⟩
      obtain ⟨other, hother, heq⟩ := mem_map.mp hmem
      exact (hlabels other hother).2 (heq ▸ mem_append_right _ (mem_singleton_self _))

/-- Where no label is left, labels were taken for fewer options, and the next code and every entry
of the pool is no single token or one that is taken. -/
theorem of_chosen_none {codes : List String} {used : List Token}
    (h : chosen tokenize codes used = none) : ∃ (taken : List (String × Token)) (code : String),
      taken.length < codes.length ∧ code ∈ codes ∧
      (∀ label ∈ taken, tokenize label.1 = [label.2]) ∧
      ∀ text ∈ code :: pool, ∀ token, tokenize text = [token] →
        token ∈ used ++ taken.map Prod.snd := by
  induction codes generalizing used with
  | nil => cases h
  | cons code codes ih =>
    rw [chosen] at h
    cases hfirst : firstFree tokenize used (code :: pool) with
    | none =>
      refine ⟨[], code, Nat.succ_pos _, mem_cons_self,
        fun label hlabel => absurd hlabel not_mem_nil, fun text htext token htoken => ?_⟩
      exact mem_append_left _ (of_firstFree_none hfirst text htext token htoken)
    | some label =>
      rw [hfirst, Option.bind_some, Option.map_eq_none_iff] at h
      obtain ⟨taken, next, hlength, hnext, htaken, hpool⟩ := ih h
      refine ⟨label :: taken, next, Nat.succ_lt_succ hlength, mem_cons_of_mem _ hnext,
        forall_mem_cons.mpr ⟨(of_firstFree hfirst).1, htaken⟩, ?_⟩
      rw [map_cons, append_cons]
      exact hpool

theorem mem_groupOf {label : String × Token} (h : tokenize label.1 = [label.2]) :
    token ∈ groupOf tokenize label ↔
      ∃ form ∈ spellings .choice label.1, tokenize form = [token] := by
  rw [groupOf, mem_cons, mem_filter, mem_singleTokens]
  constructor
  · rintro (rfl | ⟨⟨form, hform, htoken⟩, -⟩)
    · exact ⟨label.1, mem_cons_self, h⟩
    · exact ⟨form, mem_cons_of_mem _ hform, htoken⟩
  · rintro ⟨form, hform, htoken⟩
    rcases mem_pair.mp hform with rfl | rfl
    · exact .inl (singleton_inj.mp (htoken.symm.trans h))
    · by_cases heq : token = label.2
      · exact .inl heq
      · exact .inr ⟨⟨_, mem_singleton_self _, htoken⟩, decide_eq_true heq⟩

/-! ### Disjoint groups -/

/-- No spelling of an option is a token of another. For a choice it is the spaced spellings of the
labels that have to be apart: from the other plain ones and from each other. -/
def Apart (tokenize : Tokenizer) (longCodes : D1Codes) (question : Question) : Prop :=
  if question.kind = .choice then
    ∀ labels, chosen tokenize (codes longCodes question.options) [] = some labels →
      labels.Pairwise fun a b => ¬ Clash tokenize [" " ++ a.1] [b.1, " " ++ b.1] ∧
        ¬ Clash tokenize [a.1] [" " ++ b.1]
  else question.options.Pairwise fun a b =>
    ¬ Clash tokenize (spellings question.kind a) (spellings question.kind b)

theorem disjoint_iff_not_clash {group group' : List Token} {forms forms' : List String}
    (h : ∀ token, token ∈ group ↔ ∃ form ∈ forms, tokenize form = [token])
    (h' : ∀ token, token ∈ group' ↔ ∃ form ∈ forms', tokenize form = [token]) :
    List.Disjoint group group' ↔ ¬ Clash tokenize forms forms' := by
  constructor
  · rintro hdisjoint ⟨token, hleft, hright⟩
    exact hdisjoint ((h token).mpr hleft) ((h' token).mpr hright)
  · intro hclash token hleft hright
    exact hclash ⟨token, (h token).mp hleft, (h' token).mp hright⟩

/-- Two labels with plain tokens of their own share a token through a spaced spelling only. -/
theorem not_clash_iff {a b : String × Token} (ha : tokenize a.1 = [a.2])
    (hb : tokenize b.1 = [b.2]) (hne : a.2 ≠ b.2) :
    ¬ Clash tokenize (spellings .choice a.1) (spellings .choice b.1) ↔
      ¬ Clash tokenize [" " ++ a.1] [b.1, " " ++ b.1] ∧ ¬ Clash tokenize [a.1] [" " ++ b.1] := by
  rw [← not_or]
  refine not_congr ⟨?_, ?_⟩
  · rintro ⟨token, ⟨form, hform, htoken⟩, form', hform', htoken'⟩
    rcases mem_pair.mp hform with rfl | rfl
    · rcases mem_pair.mp hform' with rfl | rfl
      · -- both are plain
        rw [ha] at htoken
        rw [hb] at htoken'
        exact absurd ((singleton_inj.mp htoken).trans (singleton_inj.mp htoken').symm) hne
      · exact .inr ⟨token, ⟨_, mem_singleton_self _, htoken⟩, _, mem_singleton_self _,
          htoken'⟩
    · exact .inl ⟨token, ⟨_, mem_singleton_self _, htoken⟩, form', hform', htoken'⟩
  · rintro (⟨token, ⟨form, hform, htoken⟩, form', hform', htoken'⟩ |
      ⟨token, ⟨form, hform, htoken⟩, form', hform', htoken'⟩)
    · exact ⟨token, ⟨form, mem_cons_of_mem _ hform, htoken⟩, form', hform', htoken'⟩
    · rw [mem_singleton.mp hform] at htoken
      exact ⟨token, ⟨_, mem_cons_self, htoken⟩, form', mem_cons_of_mem _ hform', htoken'⟩

theorem length_codes (longCodes : D1Codes) (options : List String) :
    (codes longCodes options).length = options.length := by
  rw [codes, length_mapIdx]

/-- The labels of a choice. -/
theorem choice_labelled (hkind : question.kind = .choice)
    (h : d1Labels question longCodes tokenize = .ok labels) : Labelled tokenize question labels ∧
      (labels.split.Pairwise List.Disjoint ↔ Apart tokenize longCodes question) := by
  rw [d1Labels, if_neg (not_not.mpr hkind)] at h
  obtain ⟨state, hstate, h⟩ := ok_of_bind h
  have hfold := @foldlM_choiceLabel tokenize question.options.length
    (codes longCodes question.options) [] []
  rw [Apart, if_pos hkind]
  cases hchosen : chosen tokenize (codes longCodes question.options) [] with
  | none =>
    rw [hchosen] at hfold
    cases hstate.symm.trans hfold
  | some taken =>
    rw [hchosen, Option.map_some, Option.elim_some, nil_append, nil_append] at hfold
    obtain rfl := Except.ok.inj (hstate.symm.trans hfold)
    obtain rfl := (Except.ok.inj h).symm
    obtain ⟨hlength, htaken, hnodup⟩ := of_chosen hchosen
    have hplain : ∀ label ∈ taken, tokenize label.1 = [label.2] :=
      fun label hlabel => (htaken label hlabel).1
    constructor
    · refine labelled_labelsOf ?_ ?_ fun entry hentry => ?_
      · rw [length_map, hlength, length_codes]
      · -- a text that came twice would have its token twice
        rw [map_map]
        refine Nodup.map_on (fun a ha b hb heq => ?_) (Nodup.of_map _ hnodup)
        have htoken : a.2 = b.2 := singleton_inj.mp <| by
          rw [← hplain a ha, ← hplain b hb]
          exact congrArg tokenize heq
        exact Prod.ext heq htoken
      · obtain ⟨label, hlabel, rfl⟩ := mem_map.mp hentry
        refine ⟨cons_ne_nil _ _, fun token htoken => ?_⟩
        rw [hkind]
        exact (mem_groupOf (hplain label hlabel)).mp htoken
    · rw [split_labelsOf, map_map, pairwise_map]
      have hown : taken.Pairwise fun a b => a.2 ≠ b.2 := pairwise_map.mp hnodup
      have hiff {a b : String × Token} (ha : a ∈ taken) (hb : b ∈ taken) (hne : a.2 ≠ b.2) :
          List.Disjoint (groupOf tokenize a) (groupOf tokenize b) ↔
            ¬ Clash tokenize [" " ++ a.1] [b.1, " " ++ b.1] ∧
              ¬ Clash tokenize [a.1] [" " ++ b.1] :=
        (disjoint_iff_not_clash (fun _ => mem_groupOf (hplain a ha))
          fun _ => mem_groupOf (hplain b hb)).trans (not_clash_iff (hplain a ha) (hplain b hb) hne)
      constructor
      · rintro hdisjoint other hother
        obtain rfl := Option.some.inj hother
        exact (hown.and hdisjoint).imp_of_mem fun ha hb h => (hiff ha hb h.1).mp h.2
      · intro hapart
        exact (hown.and (hapart taken rfl)).imp_of_mem fun ha hb h => (hiff ha hb h.1).mpr h.2

/-- The labels of a scale. -/
theorem scale_labelled (hkind : question.kind ≠ .choice)
    (h : d1Labels question longCodes tokenize = .ok labels) : Labelled tokenize question labels ∧
      (labels.split.Pairwise List.Disjoint ↔ Apart tokenize longCodes question) := by
  rw [d1Labels, if_pos hkind] at h
  obtain ⟨rfl, hgroups⟩ := @scale_eq tokenize labels question.kind question.options [] h
  rw [nil_append, Apart, if_neg hkind]
  constructor
  · refine labelled_labelsOf (length_map _) ?_ fun entry hentry => ?_
    · rw [map_map]
      exact (map_id' question.options).symm ▸ question.nodup
    · obtain ⟨key, hkey, rfl⟩ := mem_map.mp hentry
      exact ⟨hgroups key hkey, fun token htoken => mem_singleTokens.mp htoken⟩
  · rw [split_labelsOf, map_map, pairwise_map]
    refine List.Pairwise.iff fun a b => ?_
    exact disjoint_iff_not_clash (fun _ => mem_singleTokens) fun _ => mem_singleTokens

/-- A tokenizer without spaced letters: what starts with a space is the unknown token. -/
def unspaced (text : String) : List Token :=
  if text = "A" then [1] else if text = "B" then [2] else [0]

/-- A tokenizer with spaced letters. -/
def spaced (text : String) : List Token :=
  if text = " A" then [3] else if text = " B" then [4] else unspaced text

/-- A choice of two options. -/
def twoOptions : Question := ⟨.choice, ["yes, now", "later"], by decide⟩

end Retrograd.Decision.D1
