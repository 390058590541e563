import Retrograd.Decision.PythonRead

/-!
# What is dumped is parsed back

The text of a value that is not nested too deep, and that it is **parsed back** as the value: with
any indent, with the separators of one line or of Python's default, with every character or only
ASCII.
-/

namespace Retrograd.Decision

open Logic List Option

/-- The separators are a comma and a colon, and white space behind them. -/
structure Dumps.Plain (options : Dumps) : Prop where
  item : ∃ blanks, options.itemSeparator = ',' :: blanks ∧ ∀ c ∈ blanks, isBlankChar c
  key : ∃ blanks, options.keySeparator = ':' :: blanks ∧ ∀ c ∈ blanks, isBlankChar c

/-- The options the code uses are plain. -/
theorem plain_of_used {options : Dumps}
    (h : options ∈ [stateDumps, instructionsDumps, descriptionDumps]) : options.Plain := by
  have hblank : ∀ c ∈ [' '], isBlankChar c := forall_mem_singleton.mpr (by decide)
  simp only [mem_cons, not_mem_nil, or_false] at h
  rcases h with rfl | rfl | rfl
  · exact ⟨⟨[], rfl, forall_mem_nil _⟩, ⟨[], rfl, forall_mem_nil _⟩⟩
  · exact ⟨⟨[], rfl, forall_mem_nil _⟩, ⟨[' '], rfl, hblank⟩⟩
  · exact ⟨⟨[' '], rfl, hblank⟩, ⟨[' '], rfl, hblank⟩⟩

section

variable (scientific : Float → List Char) (options : Dumps)

/-! ### The text of a value -/

mutual

/-- The text of a value, however deep it is nested. -/
def valueText (level : ℕ) : Json → List Char
  | .null => "null".toList
  | .bool truth => if truth then "true".toList else "false".toList
  | .number number => writeNumber scientific number
  | .string text => writeString options.ensureAscii text
  | .array [] => ['[', ']']
  | .array (item :: items) =>
    '[' :: (newline options (level + 1) ++ (valueText (level + 1) item
      ++ (itemsText level items ++ (newline options level ++ [']']))))
  | .object [] => ['\x7b', '\x7d']
  | .object ((key, item) :: members) =>
    '\x7b' :: (newline options (level + 1) ++ (writeString options.ensureAscii key
      ++ (options.keySeparator ++ (valueText (level + 1) item
      ++ (membersText level members ++ (newline options level ++ ['\x7d']))))))

/-- The texts of the items behind the first. -/
def itemsText (level : ℕ) : List Json → List Char
  | [] => []
  | item :: items =>
    options.itemSeparator ++ (newline options (level + 1) ++ (valueText (level + 1) item
      ++ itemsText level items))

/-- The texts of the members behind the first. -/
def membersText (level : ℕ) : List (List Char × Json) → List Char
  | [] => []
  | (key, item) :: members =>
    options.itemSeparator ++ (newline options (level + 1) ++ (writeString options.ensureAscii key
      ++ (options.keySeparator ++ (valueText (level + 1) item ++ membersText level members))))

end

mutual

/-- A value that is not nested too deep is dumped as its text. -/
theorem dump_eq (level : ℕ) (value : Json) (h : level + value.nesting < recursionLimit) :
    dump scientific options level value = .ok (valueText scientific options level value) := by
  have hlevel : ¬ recursionLimit ≤ level := by omega
  match value with
  | .null => rw [dump, if_neg hlevel]; rfl
  | .bool true => rw [dump, if_neg hlevel]; rfl
  | .bool false => rw [dump, if_neg hlevel]; rfl
  | .number number => rw [dump, if_neg hlevel]; rfl
  | .string text => rw [dump, if_neg hlevel]; rfl
  | .array [] => rw [dump, if_neg hlevel]; rfl
  | .array (item :: items) =>
    rw [Json.nesting, nestingItems] at h
    have hitem := dump_eq (level + 1) item (by omega)
    have hitems := dumpItems_eq level items (by omega)
    rw [dump, if_neg hlevel]
    simp only [dumpItems, hitem, hitems]
    simp [separator, valueText, append_assoc, bind, Except.bind]
  | .object [] => rw [dump, if_neg hlevel]; rfl
  | .object ((key, item) :: members) =>
    rw [Json.nesting, nestingMembers] at h
    have hitem := dump_eq (level + 1) item (by omega)
    have hmembers := dumpMembers_eq level members (by omega)
    rw [dump, if_neg hlevel]
    simp only [dumpMembers, hitem, hmembers]
    simp [separator, valueText, append_assoc, bind, Except.bind]

theorem dumpItems_eq (level : ℕ) (items : List Json) (h : level + nestingItems items < recursionLimit) :
    dumpItems scientific options level false items = .ok (itemsText scientific options level items) := by
  match items with
  | [] => rw [dumpItems, itemsText]
  | item :: items =>
    rw [nestingItems] at h
    have hitem := dump_eq (level + 1) item (by omega)
    have hitems := dumpItems_eq level items (by omega)
    simp only [dumpItems, hitem, hitems]
    simp [separator, itemsText, append_assoc, bind, Except.bind]

theorem dumpMembers_eq (level : ℕ) (members : List (List Char × Json))
    (h : level + nestingMembers members < recursionLimit) :
    dumpMembers scientific options level false members =
      .ok (membersText scientific options level members) := by
  match members with
  | [] => rw [dumpMembers, membersText]
  | (key, item) :: members =>
    rw [nestingMembers] at h
    have hitem := dump_eq (level + 1) item (by omega)
    have hmembers := dumpMembers_eq level members (by omega)
    simp only [dumpMembers, hitem, hmembers]
    simp [separator, membersText, append_assoc, bind, Except.bind]

end

/-! ### Reading it back -/

theorem blank_newline (level : ℕ) : ∀ c ∈ newline options level, isBlankChar c := by
  intro c hc
  unfold newline at hc
  split at hc
  · rcases mem_cons.mp hc with rfl | hc
    · decide
    · obtain rfl := eq_of_mem_replicate hc
      decide
  · cases hc

/-- White space and a character that belongs to no number stop a number. -/
theorem stops_newline (level : ℕ) {c : Char} (hc : Stops [c]) (rest : List Char) :
    Stops (newline options level ++ c :: rest) := by
  intro d hd
  unfold newline at hd
  split at hd
  · obtain rfl := some.inj hd
    decide
  · obtain rfl := some.inj hd
    exact hc _ rfl

theorem stops_separator {options : Dumps} (h : options.Plain) (rest : List Char) :
    Stops (options.itemSeparator ++ rest) := by
  obtain ⟨blanks, hseparator, -⟩ := h.item
  rw [hseparator]
  intro d hd
  obtain rfl := some.inj hd
  decide

theorem insertMember_new {key : List Char} {members : List (List Char × Json)}
    (h : key ∉ members.map Prod.fst) (value : Json) :
    insertMember key value members = members ++ [(key, value)] := by
  induction members with
  | nil => rfl
  | cons member members ih =>
    rw [map_cons, mem_cons, not_or] at h
    rw [insertMember, if_neg (Ne.symm h.1), ih h.2]
    rfl

variable {scientific options}

/-- How the text of a value begins. -/
theorem valueText_head (level : ℕ) (value : Json)
    (hfloats : ∀ x ∈ value.floats, ReadsBack scientific x) : ∃ d tail, valueText scientific options level value = d :: tail ∧
      isBlankChar d = false ∧ d ≠ ']' := by
  match value with
  | .null => exact ⟨_, _, by rw [valueText]; rfl, by decide, by decide⟩
  | .bool true => exact ⟨_, _, by rw [valueText]; rfl, by decide, by decide⟩
  | .bool false => exact ⟨_, _, by rw [valueText]; rfl, by decide, by decide⟩
  | .number number =>
    have hstops : Stops [] := by simp [Stops]
    have hread := readNumber_writeNumber number hfloats hstops
    obtain ⟨d, tail, htext, hd⟩ := head_of_readNumber hread
    obtain ⟨hblank, -, -, -, hbracket⟩ := not_blank_of_isDigit hd
    rw [append_nil] at htext
    exact ⟨d, tail, by rw [valueText, htext], hblank, hbracket⟩
  | .string text => exact ⟨_, _, by rw [valueText]; rfl, by decide, by decide⟩
  | .array [] => exact ⟨_, _, by rw [valueText], by decide, by decide⟩
  | .array (item :: items) => exact ⟨_, _, by rw [valueText], by decide, by decide⟩
  | .object [] => exact ⟨_, _, by rw [valueText], by decide, by decide⟩
  | .object ((key, item) :: members) => exact ⟨_, _, by rw [valueText], by decide, by decide⟩

/-- An array is read as its items, up to its end. -/
theorem readValue_bracket (fuel : ℕ) (text : List Char) :
    readValue (fuel + 1) ('[' :: text) =
      match eat ']' text with
      | some rest => some (.array [], rest)
      | none => readItems fuel [] text := by
  have hbrace : eat '\x7b' ('[' :: text) = none := by rw [eat_cons (by decide), if_neg (by decide)]
  have hbracket : eat '[' ('[' :: text) = some text := by rw [eat_cons (by decide), if_pos rfl]
  cases heat : eat ']' text <;> simp only [readValue, hbrace, hbracket, heat]

theorem readValue_brace (fuel : ℕ) (text : List Char) :
    readValue (fuel + 1) ('\x7b' :: text) =
      match eat '\x7d' text with
      | some rest => some (.object [], rest)
      | none => readMembers fuel [] text := by
  have hbrace : eat '\x7b' ('\x7b' :: text) = some text := by rw [eat_cons (by decide), if_pos rfl]
  cases heat : eat '\x7d' text <;> simp only [readValue, hbrace, heat]

variable {fuel : ℕ} {item : Json}

/-- The last item of an array, and its end. -/
theorem readItems_last {done : List Json} {text blanks rest : List Char}
    (hblanks : ∀ c ∈ blanks, isBlankChar c)
    (h : readValue fuel text = some (item, blanks ++ ']' :: rest)) :
    readItems (fuel + 1) done text = some (.array (done ++ [item]), rest) := by
  have hcomma : eat ',' (blanks ++ ']' :: rest) = none := by
    rw [eat_append hblanks, eat_cons (by decide), if_neg (by decide)]
  have hend : eat ']' (blanks ++ ']' :: rest) = some rest := by
    rw [eat_append hblanks, eat_cons (by decide), if_pos rfl]
  simp only [readItems, h, bind_eq_bind, bind_some, hcomma, hend]

/-- An item of an array that is not the last. -/
theorem readItems_more {done : List Json} {text rest : List Char}
    (h : readValue fuel text = some (item, ',' :: rest)) :
    readItems (fuel + 1) done text = readItems fuel (done ++ [item]) rest := by
  have hcomma : eat ',' (',' :: rest) = some rest := by rw [eat_cons (by decide), if_pos rfl]
  simp only [readItems, h, bind_eq_bind, bind_some, hcomma]

/-- A key and what follows it, as a member is read. -/
theorem eat_key {key rest : List Char} (ensureAscii : Bool) {blanks : List Char}
    (hblanks : ∀ c ∈ blanks, isBlankChar c) :
    ((eat '"' (blanks ++ (writeString ensureAscii key ++ rest))).bind readString) = some (key, rest) := by
  have htext : writeString ensureAscii key ++ rest =
      '"' :: (key.flatMap (writeChar ensureAscii) ++ '"' :: rest) := by
    simp [writeString]
  rw [eat_append hblanks, htext, eat_cons (by decide), if_pos rfl]
  exact readString_writeString ensureAscii key rest

/-- The last member of an object, and its end. -/
theorem readMembers_last {done : List (List Char × Json)} {key : List Char}
    {text text' blanks rest : List Char} (hblanks : ∀ c ∈ blanks, isBlankChar c)
    (hkey : (eat '"' text).bind readString = some (key, ':' :: text'))
    (h : readValue fuel text' = some (item, blanks ++ '\x7d' :: rest)) :
    readMembers (fuel + 1) done text = some (.object (insertMember key item done), rest) := by
  have hcolon : eat ':' (':' :: text') = some text' := by rw [eat_cons (by decide), if_pos rfl]
  have hcomma : eat ',' (blanks ++ '\x7d' :: rest) = none := by
    rw [eat_append hblanks, eat_cons (by decide), if_neg (by decide)]
  have hend : eat '\x7d' (blanks ++ '\x7d' :: rest) = some rest := by
    rw [eat_append hblanks, eat_cons (by decide), if_pos rfl]
  obtain ⟨quoted, hquote, hread⟩ := bind_eq_some_iff.mp hkey
  simp only [readMembers, hquote, hread, hcolon, h, bind_eq_bind, bind_some, hcomma,
    hend]

/-- A member of an object that is not the last. -/
theorem readMembers_more {done : List (List Char × Json)} {key : List Char}
    {text text' rest : List Char}
    (hkey : (eat '"' text).bind readString = some (key, ':' :: text'))
    (h : readValue fuel text' = some (item, ',' :: rest)) :
    readMembers (fuel + 1) done text = readMembers fuel (insertMember key item done) rest := by
  have hcolon : eat ':' (':' :: text') = some text' := by rw [eat_cons (by decide), if_pos rfl]
  have hcomma : eat ',' (',' :: rest) = some rest := by rw [eat_cons (by decide), if_pos rfl]
  obtain ⟨quoted, hquote, hread⟩ := bind_eq_some_iff.mp hkey
  simp only [readMembers, hquote, hread, hcolon, h, bind_eq_bind, bind_some, hcomma]

/-- The texts of the items. -/
def allItems (scientific : Float → List Char) (options : Dumps) (level : ℕ) : List Json → List Char
  | [] => []
  | item :: items =>
    valueText scientific options (level + 1) item ++ itemsText scientific options level items

/-- The texts of the members. -/
def allMembers (scientific : Float → List Char) (options : Dumps) (level : ℕ) :
    List (List Char × Json) → List Char
  | [] => []
  | (key, item) :: members =>
    writeString options.ensureAscii key ++ (options.keySeparator
      ++ (valueText scientific options (level + 1) item
      ++ membersText scientific options level members))

variable (hplain : options.Plain)

include hplain

set_option linter.unusedSectionVars false in
mutual

/-- The text of a value is read back as the value. -/
theorem readValue_valueText (level : ℕ) (value : Json) (hdistinct : value.Distinct)
    (hfloats : ∀ x ∈ value.floats, ReadsBack scientific x) {rest : List Char} (hrest : Stops rest) (fuel : ℕ)
    (hfuel : (valueText scientific options level value).length ≤ fuel + 1) :
    readValue (fuel + 1) (valueText scientific options level value ++ rest) = some (value, rest) := by
  match value with
  | .null => rw [valueText]; exact readValue_null fuel rest
  | .bool truth => rw [valueText]; exact readValue_bool truth fuel rest
  | .number number =>
    rw [valueText]
    exact readValue_number (readNumber_writeNumber number hfloats hrest) fuel
  | .string text => rw [valueText]; exact readValue_string options.ensureAscii text fuel rest
  | .array [] =>
    rw [valueText, cons_append, readValue_bracket, cons_append, eat_cons (by decide),
      if_pos rfl]
    rfl
  | .array (item :: items) =>
    obtain ⟨d, tail, hhead, hblank, hbracket⟩ :=
      @valueText_head scientific options (level + 1) item
        fun x hx => hfloats x (mem_append_left _ hx)
    have hitems := readItems_allItems level (item :: items) (cons_ne_nil item items) hdistinct
      hfloats (blank_newline options (level + 1)) [] rest fuel (by
        rw [valueText] at hfuel
        simp only [allItems, length_cons, length_append] at hfuel ⊢
        omega)
    rw [valueText, cons_append, readValue_bracket]
    simp only [allItems, append_assoc, cons_append, nil_append] at hitems ⊢
    rw [eat_append (blank_newline options (level + 1)), hhead, cons_append, eat_cons hblank,
      if_neg hbracket, ← cons_append, ← hhead]
    exact hitems
  | .object [] =>
    rw [valueText, cons_append, readValue_brace, cons_append, eat_cons (by decide),
      if_pos rfl]
    rfl
  | .object ((key, item) :: members) =>
    have hmembers := readMembers_allMembers level ((key, item) :: members)
      (cons_ne_nil _ members) hdistinct.2 hfloats (blank_newline options (level + 1)) []
      (by simpa using hdistinct.1) rest fuel (by
        rw [valueText] at hfuel
        simp only [allMembers, length_cons, length_append] at hfuel ⊢
        omega)
    rw [valueText, cons_append, readValue_brace]
    simp only [allMembers, append_assoc, cons_append, nil_append] at hmembers ⊢
    rw [eat_append (blank_newline options (level + 1)), writeString, cons_append,
      cons_append, eat_cons (by decide), if_neg (by decide)]
    exact hmembers

/-- The items of an array are read back behind the ones already read. -/
theorem readItems_allItems (level : ℕ) (items : List Json) (hne : items ≠ [])
    (hdistinct : DistinctItems items) (hfloats : ∀ x ∈ floatsItems items, ReadsBack scientific x)
    {blanks : List Char} (hblanks : ∀ c ∈ blanks, isBlankChar c) (done : List Json) (rest : List Char) (fuel : ℕ)
    (hfuel : (allItems scientific options level items).length + 1 ≤ fuel) :
    readItems fuel done (blanks ++ (allItems scientific options level items
      ++ (newline options level ++ ']' :: rest))) = some (.array (done ++ items), rest) := by
  match items with
  | [] => exact absurd rfl hne
  | item :: items =>
    obtain ⟨d, tail, hhead, -⟩ :=
      @valueText_head scientific options (level + 1) item
        fun x hx => hfloats x (mem_append_left _ hx)
    have hpos : 0 < (valueText scientific options (level + 1) item).length := by
      rw [hhead]
      exact Nat.succ_pos _
    rw [allItems, length_append] at hfuel
    obtain ⟨f, rfl⟩ : ∃ f, fuel = f + 2 := ⟨fuel - 2, by omega⟩
    have hitem {after : List Char} (hafter : Stops after) :=
      readValue_valueText (level + 1) item hdistinct.1
        (fun x hx => hfloats x (mem_append_left _ hx)) hafter f (by omega)
    match items with
    | [] =>
      refine readItems_last (blank_newline options level) ?_
      rw [readValue_append hblanks, allItems, itemsText, append_nil]
      exact hitem (stops_newline options level (by simp [Stops]) rest)
    | item' :: items =>
      obtain ⟨blanks', hseparator, hblanks'⟩ := hplain.item
      have hseparated : ∀ c ∈ blanks' ++ newline options (level + 1), isBlankChar c := fun c hc =>
        (mem_append.mp hc).elim (hblanks' c) (blank_newline options (level + 1) c)
      have hall := readItems_allItems level (item' :: items) (cons_ne_nil item' items)
        hdistinct.2 (fun x hx => hfloats x (mem_append_right _ hx))
        hseparated (done ++ [item]) rest (f + 1) (by
          simp only [itemsText, allItems, hseparator, length_append, length_cons] at hfuel ⊢
          omega)
      have htext : allItems scientific options level (item :: item' :: items)
          ++ (newline options level ++ ']' :: rest) =
          valueText scientific options (level + 1) item ++ (options.itemSeparator
            ++ (newline options (level + 1) ++ (allItems scientific options level (item' :: items)
            ++ (newline options level ++ ']' :: rest)))) := by
        simp only [allItems, itemsText, append_assoc]
      have hfirst (following : List Char) : readValue (f + 1) (blanks ++
          (valueText scientific options (level + 1) item ++ (options.itemSeparator ++ following))) =
          some (item, ',' :: (blanks' ++ following)) := by
        rw [readValue_append hblanks, hitem (stops_separator hplain _), hseparator]
        rfl
      rw [htext, readItems_more (hfirst _), ← append_assoc blanks', hall, append_assoc]
      rfl

/-- The members of an object are read back behind the ones already read. -/
theorem readMembers_allMembers (level : ℕ) (members : List (List Char × Json)) (hne : members ≠ [])
    (hdistinct : DistinctMembers members)
    (hfloats : ∀ x ∈ floatsMembers members, ReadsBack scientific x) {blanks : List Char}
    (hblanks : ∀ c ∈ blanks, isBlankChar c) (done : List (List Char × Json))
    (hkeys : ((done ++ members).map Prod.fst).Nodup) (rest : List Char) (fuel : ℕ)
    (hfuel : (allMembers scientific options level members).length + 1 ≤ fuel) :
    readMembers fuel done (blanks ++ (allMembers scientific options level members
      ++ (newline options level ++ '\x7d' :: rest))) = some (.object (done ++ members), rest) := by
  match members with
  | [] => exact absurd rfl hne
  | (key, item) :: members =>
    obtain ⟨d, tail, hhead, -⟩ :=
      @valueText_head scientific options (level + 1) item
        fun x hx => hfloats x (mem_append_left _ hx)
    have hpos : 0 < (valueText scientific options (level + 1) item).length := by
      rw [hhead]
      exact Nat.succ_pos _
    simp only [allMembers, length_append] at hfuel
    obtain ⟨f, rfl⟩ : ∃ f, fuel = f + 2 := ⟨fuel - 2, by omega⟩
    have hitem {after : List Char} (hafter : Stops after) :=
      readValue_valueText (level + 1) item hdistinct.1
        (fun x hx => hfloats x (mem_append_left _ hx)) hafter f (by omega)
    obtain ⟨blanksKey, hcolon, hblanksKey⟩ := hplain.key
    -- the key is new
    have hnew : key ∉ done.map Prod.fst := by
      rw [map_append, nodup_append] at hkeys
      exact fun hmem => hkeys.2.2 key hmem key (.head _) rfl
    have hdone : insertMember key item done = done ++ [(key, item)] := insertMember_new hnew item
    match members with
    | [] =>
      rw [← hdone]
      have hlast : readValue (f + 1) (blanksKey ++ (valueText scientific options (level + 1) item ++
          (newline options level ++ '\x7d' :: rest))) =
          some (item, newline options level ++ '\x7d' :: rest) := by
        rw [readValue_append hblanksKey]
        exact hitem (stops_newline options level (by simp [Stops]) rest)
      refine readMembers_last (blank_newline options level) ?_ hlast
      simp only [allMembers, membersText, hcolon, append_assoc, append_nil]
      exact eat_key options.ensureAscii hblanks
    | member' :: members =>
      obtain ⟨blanks', hseparator, hblanks'⟩ := hplain.item
      have hseparated : ∀ c ∈ blanks' ++ newline options (level + 1), isBlankChar c := fun c hc =>
        (mem_append.mp hc).elim (hblanks' c) (blank_newline options (level + 1) c)
      have hall := readMembers_allMembers level (member' :: members) (cons_ne_nil member' members)
        hdistinct.2 (fun x hx => hfloats x (mem_append_right _ hx))
        hseparated (done ++ [(key, item)]) (by simpa using hkeys) rest (f + 1) (by
          simp only [membersText, allMembers, hseparator, length_append, length_cons]
            at hfuel ⊢
          omega)
      have htext : allMembers scientific options level ((key, item) :: member' :: members)
          ++ (newline options level ++ '\x7d' :: rest) =
          writeString options.ensureAscii key ++ (options.keySeparator
            ++ (valueText scientific options (level + 1) item ++ (options.itemSeparator
            ++ (newline options (level + 1) ++ (allMembers scientific options level (member' :: members)
            ++ (newline options level ++ '\x7d' :: rest)))))) := by
        simp only [allMembers, membersText, append_assoc]
      have hfirst (following : List Char) : readValue (f + 1) (blanksKey ++
          (valueText scientific options (level + 1) item ++ (options.itemSeparator ++ following))) =
          some (item, ',' :: (blanks' ++ following)) := by
        rw [readValue_append hblanksKey, hitem (stops_separator hplain _), hseparator]
        rfl
      rw [htext, readMembers_more ?_ (hfirst _), hdone, ← append_assoc blanks', hall,
        append_assoc]
      · rfl
      · rw [hcolon]
        exact eat_key options.ensureAscii hblanks

end

end

/-- Every value that is not nested too deep is dumped, with any plain options, as a text that is
parsed back as the value, its keys in their order. -/
theorem parse_dumps {scientific : Float → List Char} {options : Dumps} (hplain : options.Plain)
    (value : Json) (hdistinct : value.Distinct) (hdepth : value.nesting < recursionLimit)
    (hfloats : ∀ x ∈ value.floats, ReadsBack scientific x) :
    ∃ text, dumps scientific options value = .ok text ∧ parse text = some value := by
  refine ⟨valueText scientific options 0 value, dump_eq scientific options 0 value (by omega), ?_⟩
  have hstops : Stops [] := by simp [Stops]
  have hread := readValue_valueText hplain 0 value hdistinct hfloats hstops
    (valueText scientific options 0 value).length (Nat.le_succ _)
  rw [List.append_nil] at hread
  simp only [parse, hread, Option.bind_eq_bind, Option.bind_some]
  rfl

/-- A value with escapes, a surrogate pair, an integer, a float and an empty array. -/
def sampleValue : Json :=
  .object [(['k', '\n', '😀'],
    .array [.number (.negInt 5 (by decide)), .number (.float 0.5 (by decide +kernel)),
      .string ['"', '\x7f'], .array []])]

theorem parse_dumps_sample : ∃ text,
    dumps (fun x => if x = 0.5 then "5e-1".toList else []) instructionsDumps sampleValue = .ok text ∧
      parse text = some sampleValue := by
  refine parse_dumps (plain_of_used (by simp)) sampleValue ?_ (by decide) ?_
  · simp [sampleValue, Json.Distinct, DistinctItems, DistinctMembers]
  · intro x hx
    obtain rfl : x = 0.5 := by
      simpa [sampleValue, Json.floats, floatsItems, floatsMembers] using hx
    exact ⟨false, ['5'], -1, ⟨⟨by decide, List.forall_mem_singleton.mpr (by decide)⟩, by decide,
      by decide⟩, by decide +kernel, by decide +kernel⟩

end Retrograd.Decision
