import Retrograd.Decision.Python
import Retrograd.Logic.Text

/-!
# Reading back what Python prints

Every text that is printed is read back as the value it was printed for: characters one by one,
numbers by their layout, and arrays and objects **item by item**, as deep as values are printed.
-/

namespace Retrograd.Decision

open Logic List

/-! ### Characters -/

variable {n : ℕ}

theorem hexValue_digitChar (h : n < 16) : hexValue n.digitChar = some n := by
  revert n
  decide

theorem readUnit_hex4 (h : n < 0x10000) (rest : List Char) :
    readUnit (hex4 n ++ rest) = some (n, rest) := by
  have hdigit (m : ℕ) : hexValue (m % 16).digitChar = some (m % 16) :=
    hexValue_digitChar (Nat.mod_lt _ (by decide))
  have hvalue : n / 4096 % 16 * 4096 + n / 256 % 16 * 256 + n / 16 % 16 * 16 + n % 16 = n := by
    omega
  change (do
    let a ← hexValue (n / 4096 % 16).digitChar
    let b ← hexValue (n / 256 % 16).digitChar
    let c ← hexValue (n / 16 % 16).digitChar
    let d ← hexValue (n % 16).digitChar
    some (a * 4096 + b * 256 + c * 16 + d, rest)) = _
  rw [hdigit, hdigit, hdigit, hdigit]
  exact congrArg (fun n => some (n, rest)) hvalue

/-- A character is no surrogate. -/
theorem not_surrogate (c : Char) : c.toNat < 0xd800 ∨ 0xe000 ≤ c.toNat ∧ c.toNat < 0x110000 := by
  have hvalid : c.toNat < 0xd800 ∨ 0xdfff < c.toNat ∧ c.toNat < 0x110000 := c.valid
  omega

theorem readUnicode_unit (h : n < 0xd800 ∨ 0xe000 ≤ n ∧ n < 0x10000) (rest : List Char) :
    readUnicode (hex4 n ++ rest) = some (Char.ofNat n, rest) := by
  have hhigh : ¬ (0xd800 ≤ n ∧ n < 0xdc00) := by omega
  have hlow : ¬ (0xdc00 ≤ n ∧ n < 0xe000) := by omega
  simp only [readUnicode, readUnit_hex4 (show n < 0x10000 by omega), Option.bind_eq_bind,
    Option.bind_some, if_neg hhigh, if_neg hlow]

theorem readUnicode_pair {high low : ℕ} (hhigh : 0xd800 ≤ high ∧ high < 0xdc00)
    (hlow : 0xdc00 ≤ low ∧ low < 0xe000) (rest : List Char) :
    readUnicode (hex4 high ++ (['\\', 'u'] ++ (hex4 low ++ rest))) =
      some (Char.ofNat (0x10000 + (high - 0xd800) * 0x400 + (low - 0xdc00)), rest) := by
  simp only [readUnicode, readUnit_hex4 (show high < 0x10000 by omega),
    readUnit_hex4 (show low < 0x10000 by omega), Option.bind_eq_bind, Option.bind_some,
    if_pos hhigh, if_pos hlow, eatLiteral, isPrefixOf?_append]

/-- The units of a character are read back as the character. -/
theorem readUnicode_units (c : Char) (rest : List Char) :
    ∃ tail, (encodeUtf16 c).flatMap (fun unit => '\\' :: 'u' :: hex4 unit) = '\\' :: 'u' :: tail ∧
      readUnicode (tail ++ rest) = some (c, rest) := by
  have hvalid := not_surrogate c
  by_cases hplane : c.toNat < 0x10000
  · refine ⟨hex4 c.toNat, ?_, ?_⟩
    · rw [encodeUtf16, if_pos hplane]
      exact append_nil _
    · rw [readUnicode_unit (by omega), Char.ofNat_toNat]
  · -- a surrogate pair
    obtain ⟨high, hhigh⟩ : ∃ high, high = 0xd800 + (c.toNat - 0x10000) / 0x400 := ⟨_, rfl⟩
    obtain ⟨low, hlow⟩ : ∃ low, low = 0xdc00 + (c.toNat - 0x10000) % 0x400 := ⟨_, rfl⟩
    have hvalue : 0x10000 + (high - 0xd800) * 0x400 + (low - 0xdc00) = c.toNat := by omega
    refine ⟨hex4 high ++ (['\\', 'u'] ++ hex4 low), ?_, ?_⟩
    · rw [encodeUtf16, if_neg hplane, ← hhigh, ← hlow]
      simp
    · rw [append_assoc, append_assoc, readUnicode_pair (by omega) (by omega), hvalue,
        Char.ofNat_toNat]

theorem readChar_escape {escape c : Char} (hu : escape ≠ 'u') (hc : shortEscape escape = some c)
    (rest : List Char) : readChar ('\\' :: escape :: rest) = some (c, rest) := by
  simp only [readChar, ↓reduceIte, if_neg hu, hc, Option.map_some]

theorem readChar_plain {c : Char} (hslash : c ≠ '\\') (hcontrol : ¬ c.toNat < 0x20)
    (rest : List Char) : readChar (c :: rest) = some (c, rest) := by
  cases rest <;> simp only [readChar, if_neg hslash, if_neg hcontrol]

/-- What is written for a character is read back as the character, and begins with no quote. -/
theorem readChar_writeChar (ensureAscii : Bool) (c : Char) (rest : List Char) :
    ∃ d tail, writeChar ensureAscii c = d :: tail ∧ d ≠ '"' ∧
      readChar (d :: tail ++ rest) = some (c, rest) := by
  unfold writeChar
  split_ifs with hquote hslash hb hf hn hr ht hcontrol hplain
  · subst hquote
    exact ⟨_, _, rfl, by decide, readChar_escape (by decide) rfl rest⟩
  · subst hslash
    exact ⟨_, _, rfl, by decide, readChar_escape (by decide) rfl rest⟩
  · subst hb
    exact ⟨_, _, rfl, by decide, readChar_escape (by decide) rfl rest⟩
  · subst hf
    exact ⟨_, _, rfl, by decide, readChar_escape (by decide) rfl rest⟩
  · subst hn
    exact ⟨_, _, rfl, by decide, readChar_escape (by decide) rfl rest⟩
  · subst hr
    exact ⟨_, _, rfl, by decide, readChar_escape (by decide) rfl rest⟩
  · subst ht
    exact ⟨_, _, rfl, by decide, readChar_escape (by decide) rfl rest⟩
  · have hunits : encodeUtf16 c = [c.toNat] := if_pos (by omega)
    obtain ⟨tail, htail, hread⟩ := readUnicode_units c rest
    rw [hunits] at htail
    refine ⟨_, _, rfl, by decide, ?_⟩
    have htail' : 'u' :: hex4 c.toNat = 'u' :: tail := by simpa using htail
    rw [htail']
    exact hread
  · refine ⟨c, [], rfl, hquote, ?_⟩
    exact readChar_plain hslash (fun h => hcontrol (.inl h)) rest
  · obtain ⟨tail, htail, hread⟩ := readUnicode_units c rest
    exact ⟨_, _, htail, by decide, hread⟩

variable {c d : Char}

theorem readChars_cons {text rest chars tail : List Char} {fuel : ℕ} (hquote : c ≠ '"')
    (hread : readChar (c :: text) = some (d, rest))
    (hrest : readChars fuel rest = some (chars, tail)) :
    readChars (fuel + 1) (c :: text) = some (d :: chars, tail) := by
  unfold readChars
  dsimp only
  rw [if_neg hquote, hread]
  simp only [Option.bind_eq_bind, Option.bind_some, hrest]

theorem readChars_writeChars (ensureAscii : Bool) (text rest : List Char) {fuel : ℕ}
    (h : text.length < fuel) :
    readChars fuel (text.flatMap (writeChar ensureAscii) ++ '"' :: rest) = some (text, rest) := by
  induction text generalizing fuel with
  | nil =>
    cases fuel with
    | zero => exact absurd h (Nat.not_lt_zero _)
    | succ fuel => rfl
  | cons c text ih =>
    cases fuel with
    | zero => exact absurd h (Nat.not_lt_zero _)
    | succ fuel =>
      rw [flatMap_cons, append_assoc]
      obtain ⟨d, tail, hwritten, hquote, hread⟩ := readChar_writeChar ensureAscii c
        (text.flatMap (writeChar ensureAscii) ++ '"' :: rest)
      rw [hwritten]
      exact readChars_cons hquote hread (ih (by simpa using h))

theorem length_le_flatMap_writeChar (ensureAscii : Bool) (text : List Char) :
    text.length ≤ (text.flatMap (writeChar ensureAscii)).length := by
  induction text with
  | nil => exact Nat.le_refl _
  | cons c text ih =>
    obtain ⟨d, tail, hwritten, -⟩ := readChar_writeChar ensureAscii c []
    rw [flatMap_cons, length_append, hwritten]
    simp only [length_cons]
    omega

/-- A string is read back as its characters. -/
theorem readString_writeString (ensureAscii : Bool) (text rest : List Char) :
    readString (text.flatMap (writeChar ensureAscii) ++ '"' :: rest) = some (text, rest) := by
  refine readChars_writeChars ensureAscii text rest ?_
  have hle := length_le_flatMap_writeChar ensureAscii text
  rw [length_append, length_cons]
  omega

/-! ### Numbers -/

/-- What follows a number does not go on with it. -/
def Stops (rest : List Char) : Prop :=
  ∀ c ∈ rest.head?, c.isDigit = false ∧ c ≠ '.' ∧ c ≠ 'e' ∧ c ≠ 'E'

/-- A power of ten as it is written: its sign and its digits. -/
structure Power where
  negative : Bool
  digits : List Char

def Power.value (power : Power) : ℤ :=
  if power.negative then -(digitsValue power.digits : ℤ) else digitsValue power.digits

def fractionText : Option (List Char) → List Char
  | some digits => '.' :: digits
  | none => []

def powerText : Option Power → List Char
  | some power => 'e' :: (if power.negative then '-' else '+') :: power.digits
  | none => []

/-- The text of a number in its parts. -/
def numberText (negative : Bool) (whole : List Char) (fraction : Option (List Char))
    (power : Option Power) : List Char :=
  (if negative then ['-'] else []) ++ (whole ++ (fractionText fraction ++ powerText power))

/-- One or more digits. -/
def Digits (digits : List Char) : Prop := digits ≠ [] ∧ ∀ c ∈ digits, c.isDigit

theorem readDigits_append {digits rest : List Char} (h : Digits digits)
    (hrest : ∀ c ∈ rest.head?, c.isDigit = false) :
    readDigits (digits ++ rest) = some (digits, rest) := by
  have htake : rest.takeWhile Char.isDigit = [] := by
    cases rest with
    | nil => rfl
    | cons c rest => exact takeWhile_cons_of_neg (by simp [hrest c rfl])
  have hdrop : rest.dropWhile Char.isDigit = rest := by
    cases rest with
    | nil => rfl
    | cons c rest => exact dropWhile_cons_of_neg (by simp [hrest c rfl])
  rw [readDigits, takeWhile_append_of_pos h.2, htake, append_nil, if_neg h.1,
    dropWhile_append_of_pos h.2, hdrop]

variable {fraction : Option (List Char)} {rest : List Char}

theorem readFraction_append (h : ∀ digits, fraction = some digits → Digits digits)
    (hrest : ∀ c ∈ rest.head?, c.isDigit = false ∧ c ≠ '.') :
    readFraction (fractionText fraction ++ rest) = some (fraction, rest) := by
  cases fraction with
  | none =>
    cases rest with
    | nil => rfl
    | cons c rest => exact if_neg (hrest c rfl).2
  | some digits =>
    have hread := readDigits_append (h digits rfl) fun c hc => (hrest c hc).1
    simp only [fractionText, cons_append, readFraction, ↓reduceIte, hread, Option.map_some]

theorem readExponent_append {power : Option Power} (h : ∀ p, power = some p → Digits p.digits)
    (hrest : Stops rest) :
    readExponent (powerText power ++ rest) = some (power.map Power.value, rest) := by
  cases power with
  | none =>
    cases rest with
    | nil => rfl
    | cons c rest =>
      obtain ⟨-, -, he, hE⟩ := hrest c rfl
      exact if_neg (by simp [he, hE])
  | some power =>
    obtain ⟨negative, digits⟩ := power
    have hsign : readSign ((if negative then '-' else '+') :: (digits ++ rest)) =
        (negative, digits ++ rest) := by
      cases negative <;> rfl
    have hread := readDigits_append (h _ rfl) fun c hc => (hrest c hc).1
    simp only [powerText, cons_append, readExponent, true_or, ↓reduceIte, hsign, hread,
      Option.map_some, Power.value]

variable {negative : Bool}

/-- A number is read back from the text of its parts. -/
theorem readNumber_text {whole : List Char} {power : Option Power} (hwhole : Digits whole)
    (hzero : ¬ (whole.head? = some '0' ∧ 1 < whole.length))
    (hfraction : ∀ digits, fraction = some digits → Digits digits)
    (hpower : ∀ p, power = some p → Digits p.digits) (hrest : Stops rest) :
    readNumber (numberText negative whole fraction power ++ rest) =
      (numberOf negative whole fraction (power.map Power.value)).map (·, rest) := by
  have htext : numberText negative whole fraction power ++ rest =
      (if negative then ['-'] else []) ++ (whole ++ (fractionText fraction ++ (powerText power ++ rest))) := by
    simp only [numberText, append_assoc]
  have hpowerHead : ∀ c ∈ (powerText power ++ rest).head?, c.isDigit = false ∧ c ≠ '.' := by
    cases power with
    | none => exact fun c hc => ⟨(hrest c hc).1, (hrest c hc).2.1⟩
    | some power =>
      rintro c hc
      obtain rfl := Option.some.inj hc
      decide
  have hfractionHead : ∀ c ∈ (fractionText fraction ++ (powerText power ++ rest)).head?, c.isDigit = false := by
    cases fraction with
    | none => exact fun c hc => (hpowerHead c hc).1
    | some digits =>
      rintro c hc
      obtain rfl := Option.some.inj hc
      decide
  have hsign : (numberText negative whole fraction power ++ rest).head? = some '-' ↔ negative := by
    rw [htext]
    cases negative with
    | true => simp
    | false =>
      obtain ⟨c, whole, rfl⟩ := exists_cons_of_ne_nil hwhole.1
      have hdigit := hwhole.2 c (.head _)
      simp only [Bool.false_eq_true, ↓reduceIte, nil_append, cons_append,
        head?_cons, Option.some.injEq, iff_false]
      rintro rfl
      exact absurd hdigit (by decide)
  have hbody : (if negative then (numberText negative whole fraction power ++ rest).tail
      else numberText negative whole fraction power ++ rest) =
      whole ++ (fractionText fraction ++ (powerText power ++ rest)) := by
    rw [htext]
    cases negative <;> rfl
  have hread := readFraction_append hfraction hpowerHead
  have hread' := readExponent_append hpower hrest
  have hnegative : decide ((numberText negative whole fraction power ++ rest).head? = some '-') =
      negative := by
    rw [Bool.eq_iff_iff, decide_eq_true_iff, hsign]
  simp only [readNumber, hnegative, hbody, readDigits_append hwhole hfractionHead,
    Option.bind_eq_bind, Option.bind_some, if_neg hzero, hread, hread']
  cases numberOf negative whole fraction (power.map Power.value) <;> rfl

theorem digits_toDigits (n : ℕ) : Digits (Nat.toDigits 10 n) :=
  ⟨Nat.toDigits_ne_nil, fun _ hc => Nat.isDigit_of_mem_toDigits (by decide) (by decide) hc⟩

theorem digitsValue_toDigits (n : ℕ) : digitsValue (Nat.toDigits 10 n) = n :=
  Nat.ofDigitChars_ten_toDigits

/-- A number is written without zeros in front. -/
theorem toDigits_head (h : 0 < n) : (Nat.toDigits 10 n).head? ≠ some '0' := by
  induction n using Nat.strong_induction_on with
  | _ n ih =>
    by_cases hbase : n < 10
    · rw [Nat.toDigits_of_lt_base hbase]
      simp only [head?_cons, ne_eq, Option.some.injEq, Nat.digitChar_eq_zero]
      omega
    · rw [Nat.toDigits_of_base_le (by decide) (by omega), head?_append_of_ne_nil _
        Nat.toDigits_ne_nil]
      exact ih (n / 10) (by omega) (by omega)

theorem toDigits_no_zero (n : ℕ) :
    ¬ ((Nat.toDigits 10 n).head? = some '0' ∧ 1 < (Nat.toDigits 10 n).length) := by
  rintro ⟨hhead, hlength⟩
  rcases Nat.eq_zero_or_pos n with rfl | hpos
  · exact absurd hlength (by decide)
  · exact toDigits_head hpos hhead

/-- An integer is read back from its digits. -/
theorem readNumber_integer (negative : Bool) (n : ℕ) (hrest : Stops rest) :
    readNumber ((if negative then ['-'] else []) ++ Nat.toDigits 10 n ++ rest) =
      (numberOf negative (Nat.toDigits 10 n) none none).map (·, rest) := by
  have hread := @readNumber_text none rest negative (Nat.toDigits 10 n) none
    (digits_toDigits n) (toDigits_no_zero n) (by simp) (by simp) hrest
  simpa [numberText, fractionText, powerText] using hread

/-! ### The layouts of a float -/

/-- An integer as it is displayed. -/
def intText (n : ℤ) : List Char := (if n < 0 then ['-'] else []) ++ Nat.toDigits 10 n.natAbs

/-- Digits in exponent form: the first one, a point and the others if there are any, and the
exponent. -/
def scientificText (negative : Bool) (digits : List Char) (exponent : ℤ) : List Char :=
  (if negative then ['-'] else []) ++ digits.take 1
    ++ (if 1 < digits.length then '.' :: digits.drop 1 else []) ++ 'e' :: intText exponent

/-- Digits and the exponent of the first of them. Only zero begins with a zero. -/
structure Significant (digits : List Char) (exponent : ℤ) : Prop where
  all : Digits digits
  first : digits.head? = some '0' → digits = ['0'] ∧ exponent = 0
  small : exponent.natAbs ≤ 324

/-- The exponent form that the standard library gives a float reads back as the float. -/
def ReadsBack (scientific : Float → List Char) (value : Float) : Prop :=
  ∃ negative digits exponent, Significant digits exponent ∧
    scientific value = scientificText negative digits exponent ∧
    nearestDouble negative (decimalValue digits (exponent - (digits.length - 1))) = value

theorem parseI64_intText {n : ℤ} (h : n.natAbs ≤ 324) : parseI64 (intText n) = some n := by
  have hsign : readSign (intText n) = (decide (n < 0), Nat.toDigits 10 n.natAbs) := by
    unfold intText
    split_ifs with hneg
    · simp [readSign, hneg]
    · obtain ⟨c, tail, htail⟩ := exists_cons_of_ne_nil
        (Nat.toDigits_ne_nil (n := n.natAbs) (b := 10))
      have hdigit := (digits_toDigits n.natAbs).2 c (htail ▸ .head _)
      have hminus : c ≠ '-' := by
        rintro rfl
        exact absurd hdigit (by decide)
      have hplus : c ≠ '+' := by
        rintro rfl
        exact absurd hdigit (by decide)
      rw [htail]
      simp [readSign, hminus, hplus, hneg]
  have hdigits := digits_toDigits n.natAbs
  have hvalue : (if decide (n < 0) = true then -((n.natAbs : ℕ) : ℤ) else (n.natAbs : ℤ)) = n := by
    split_ifs with hneg
    · rw [decide_eq_true_iff] at hneg
      omega
    · rw [decide_eq_true_iff] at hneg
      omega
  have hall : (Nat.toDigits 10 n.natAbs).all Char.isDigit = true := all_eq_true.mpr hdigits.2
  simp only [parseI64, hsign, hall, not_true_eq_false, or_false, hdigits.1, if_false,
    digitsValue_toDigits, hvalue]
  rw [if_pos (by omega)]

/-- What is in front of the exponent. -/
def mantissaText (negative : Bool) (digits : List Char) : List Char :=
  (if negative then ['-'] else []) ++ digits.take 1
    ++ (if 1 < digits.length then '.' :: digits.drop 1 else [])

theorem mem_mantissaText {digits : List Char} {c : Char} (h : c ∈ mantissaText negative digits) :
    c = '-' ∨ c = '.' ∨ c ∈ digits := by
  unfold mantissaText at h
  simp only [mem_append] at h
  rcases h with (hsign | hfirst) | hrest
  · cases negative with
    | true => exact .inl (mem_singleton.mp hsign)
    | false => cases hsign
  · exact .inr (.inr (mem_of_mem_take hfirst))
  · split_ifs at hrest
    · rcases mem_cons.mp hrest with hpoint | hrest
      · exact .inr (.inl hpoint)
      · exact .inr (.inr (mem_of_mem_drop hrest))
    · cases hrest

theorem filter_mantissaText (negative : Bool) {digits : List Char} (h : ∀ c ∈ digits, c.isDigit) :
    (mantissaText negative digits).filter Char.isDigit = digits := by
  have hsign : (if negative then ['-'] else []).filter Char.isDigit = [] := by
    cases negative <;> rfl
  have htake : (digits.take 1).filter Char.isDigit = digits.take 1 :=
    filter_eq_self.mpr fun c hc => h c (mem_of_mem_take hc)
  have hdrop : (digits.drop 1).filter Char.isDigit = digits.drop 1 :=
    filter_eq_self.mpr fun c hc => h c (mem_of_mem_drop hc)
  rw [mantissaText, filter_append, filter_append, hsign, htake, nil_append]
  split_ifs with hmore
  · rw [filter_cons_of_neg (by decide), hdrop, take_append_drop]
  · rw [filter_nil, append_nil, take_of_length_le (by omega)]

theorem head_mantissaText (negative : Bool) {digits : List Char} (h : Digits digits) :
    (mantissaText negative digits).head? = some '-' ↔ negative := by
  obtain ⟨c, rest, rfl⟩ := exists_cons_of_ne_nil h.1
  have hdigit := h.2 c (.head _)
  cases negative with
  | true => simp [mantissaText]
  | false =>
    simp only [mantissaText, Bool.false_eq_true, if_false, nil_append, take_succ_cons,
      cons_append, head?_cons, Option.some.injEq, iff_false]
    rintro rfl
    exact absurd hdigit (by decide)

/-- The text of a float by the range of its exponent. -/
def layout (negative : Bool) (digits : List Char) (exponent : ℤ) : List Char :=
  if ¬ (-4 ≤ exponent ∧ exponent < 16) then
    numberText negative (digits.take 1) (if 1 < digits.length then some (digits.drop 1) else none)
      (some ⟨exponent < 0, twoDigits exponent.natAbs⟩)
  else if (digits.length : ℤ) - 1 ≤ exponent then
    numberText negative (digits ++ List.replicate (exponent - (digits.length - 1)).toNat '0')
      (some ['0']) none
  else if 0 ≤ exponent then
    numberText negative (digits.take (exponent.toNat + 1))
      (some (digits.drop (exponent.toNat + 1))) none
  else
    numberText negative ['0'] (some (List.replicate (-exponent - 1).toNat '0' ++ digits)) none

/-- The text of a float is laid out from the digits and the exponent the standard library
gives. -/
theorem floatRepr_scientificText (negative : Bool) {digits : List Char} {exponent : ℤ}
    (h : Significant digits exponent) :
    floatRepr (scientificText negative digits exponent) = layout negative digits exponent := by
  have hno (c : Char) (hc : c ∈ mantissaText negative digits) : c ≠ 'e' := by
    rintro rfl
    rcases mem_mantissaText hc with hc | hc | hc
    · exact absurd hc (by decide)
    · exact absurd hc (by decide)
    · exact absurd (h.all.2 _ hc) (by decide)
  have htext : scientificText negative digits exponent =
      mantissaText negative digits ++ 'e' :: intText exponent := rfl
  have htake : (scientificText negative digits exponent).takeWhile (· ≠ 'e') =
      mantissaText negative digits := by
    rw [htext, takeWhile_append_of_pos (by simpa using hno)]
    exact append_nil _
  have hdrop : (scientificText negative digits exponent).dropWhile (· ≠ 'e') =
      'e' :: intText exponent := by
    rw [htext, dropWhile_append_of_pos (by simpa using hno)]
    rfl
  have hmem : 'e' ∈ scientificText negative digits exponent :=
    mem_append_right _ (.head _)
  have hsign : (if (mantissaText negative digits).head? = some '-' then ['-'] else []) =
      if negative then ['-'] else [] := by
    simp only [head_mantissaText negative h.all]
  simp only [floatRepr, htake, hdrop, hmem, if_true, tail_cons, parseI64_intText h.small,
    Option.getD_some, hsign, filter_mantissaText negative h.all.2]
  unfold layout numberText
  split_ifs <;> simp_all [fractionText, powerText]

theorem digits_twoDigits (n : ℕ) : Digits (twoDigits n) := by
  unfold twoDigits
  split_ifs
  · refine ⟨by simp, fun c hc => ?_⟩
    rcases mem_cons.mp hc with rfl | hc
    · decide
    · exact (digits_toDigits n).2 c hc
  · exact digits_toDigits n

theorem digitsValue_twoDigits (n : ℕ) : digitsValue (twoDigits n) = n := by
  unfold twoDigits
  split_ifs
  · exact (digitsValue_zeros_append _ 1).trans (digitsValue_toDigits n)
  · exact digitsValue_toDigits n

theorem Digits.append {l r : List Char} (hl : Digits l) (hr : ∀ c ∈ r, c.isDigit) :
    Digits (l ++ r) := by
  refine ⟨append_ne_nil_of_left_ne_nil hl.1 r, fun c hc => ?_⟩
  rcases mem_append.mp hc with hc | hc
  · exact hl.2 c hc
  · exact hr c hc

theorem isDigit_replicate_zero {c : Char} (hc : c ∈ List.replicate n '0') : c.isDigit := by
  obtain rfl := eq_of_mem_replicate hc
  decide

/-- With a fraction or an exponent the number is a double. -/
theorem numberOf_double {whole : List Char} {exponent : Option ℤ}
    (h : fraction.isSome ∨ exponent.isSome) {value : ℚ}
    (hvalue : decimalValue (whole ++ fraction.getD []) (exponent.getD 0 - (fraction.getD []).length) = value) :
    numberOf negative whole fraction exponent = finiteNumber (nearestDouble negative value) := by
  unfold numberOf
  rw [← hvalue]
  exact if_pos h

theorem Digits.take {digits : List Char} (h : Digits digits) (n : ℕ) :
    Digits (digits.take (n + 1)) := by
  refine ⟨ne_nil_of_length_pos ?_, fun c hc => h.2 c (mem_of_mem_take hc)⟩
  have hpos := length_pos_iff.mpr h.1
  rw [length_take]
  omega

theorem Digits.drop {digits : List Char} (h : Digits digits) (hn : n < digits.length) :
    Digits (digits.drop n) := by
  refine ⟨ne_nil_of_length_pos ?_, fun c hc => h.2 c (mem_of_mem_drop hc)⟩
  rw [length_drop]
  omega

section Layouts

variable (negative : Bool) {digits : List Char} {exponent : ℤ} (h : Significant digits exponent)
  {rest : List Char} (hrest : Stops rest)

include h hrest

/-- One digit in front of the point, and an exponent. -/
theorem readNumber_exponent : readNumber (numberText negative (digits.take 1)
      (if 1 < digits.length then some (digits.drop 1) else none)
      (some ⟨exponent < 0, twoDigits exponent.natAbs⟩) ++ rest) =
    (finiteNumber (nearestDouble negative
      (decimalValue digits (exponent - (digits.length - 1))))).map (·, rest) := by
  have hpos := length_pos_iff.mpr h.all.1
  rw [readNumber_text (h.all.take 0) (by simp) ?_ ?_ hrest, numberOf_double (.inr rfl) ?_]
  · have hpower : Power.value ⟨exponent < 0, twoDigits exponent.natAbs⟩ = exponent := by
      simp only [Power.value, digitsValue_twoDigits, decide_eq_true_iff]
      split_ifs <;> omega
    simp only [Option.map_some, Option.getD_some, hpower]
    split_ifs with hmore
    · simp only [Option.getD_some, take_append_drop, length_drop]
      congr 1
      omega
    · simp only [Option.getD_none, append_nil, length_nil]
      rw [take_of_length_le (by omega)]
      congr 1
      omega
  · intro fraction hfraction
    split_ifs at hfraction with hmore
    exact Option.some.inj hfraction ▸ h.all.drop hmore
  · rintro power hpower
    exact Option.some.inj hpower ▸ digits_twoDigits _

/-- Zeros behind the digits. -/
theorem readNumber_whole {k : ℕ} (hk : exponent - (digits.length - 1) = k) :
    readNumber (numberText negative (digits ++ List.replicate k '0') (some ['0']) none ++ rest) =
      (finiteNumber (nearestDouble negative (decimalValue digits k))).map (·, rest) := by
  have hdigits : Digits (digits ++ List.replicate k '0') :=
    h.all.append fun c hc => isDigit_replicate_zero hc
  have hfirst : ¬ ((digits ++ List.replicate k '0').head? = some '0' ∧
      1 < (digits ++ List.replicate k '0').length) := by
    rw [head?_append_of_ne_nil _ h.all.1, length_append, length_replicate]
    rintro ⟨hzero, hlong⟩
    obtain ⟨rfl, rfl⟩ := h.first hzero
    simp only [length_singleton] at hk hlong
    omega
  rw [readNumber_text hdigits hfirst ?_ (by simp) hrest, numberOf_double (.inl rfl) ?_]
  · have hzeros : digits ++ List.replicate k '0' ++ ['0'] = digits ++ List.replicate (k + 1) '0' := by
      rw [append_assoc, replicate_succ']
    simp only [Option.map_none, Option.getD_none, Option.getD_some, hzeros,
      decimalValue_append_zeros]
    congr 1
    push_cast [length_singleton]
    omega
  · rintro fraction hfraction
    exact Option.some.inj hfraction ▸ ⟨by decide, forall_mem_singleton.mpr (by decide)⟩

/-- The point within the digits. -/
theorem readNumber_point {k : ℕ} (hk : exponent = k) (hfew : k + 1 < digits.length) :
    readNumber (numberText negative (digits.take (k + 1)) (some (digits.drop (k + 1))) none ++ rest) =
      (finiteNumber (nearestDouble negative
        (decimalValue digits (exponent - (digits.length - 1))))).map (·, rest) := by
  have hfirst : ¬ ((digits.take (k + 1)).head? = some '0' ∧ 1 < (digits.take (k + 1)).length) := by
    rintro ⟨hzero, -⟩
    rw [head?_take, if_neg (by omega)] at hzero
    obtain ⟨rfl, -⟩ := h.first hzero
    simp only [length_singleton] at hfew
    omega
  rw [readNumber_text (h.all.take k) hfirst ?_ (by simp) hrest, numberOf_double (.inl rfl) ?_]
  · simp only [Option.map_none, Option.getD_none, Option.getD_some, take_append_drop,
      length_drop]
    congr 1
    omega
  · rintro fraction hfraction
    exact Option.some.inj hfraction ▸ h.all.drop hfew

/-- Zeros in front of the digits. -/
theorem readNumber_small {k : ℕ} (hk : -exponent - 1 = k) :
    readNumber (numberText negative ['0'] (some (List.replicate k '0' ++ digits)) none ++ rest) =
      (finiteNumber (nearestDouble negative
        (decimalValue digits (exponent - (digits.length - 1))))).map (·, rest) := by
  rw [readNumber_text ⟨by decide, forall_mem_singleton.mpr (by decide)⟩ (by decide) ?_ (by simp)
      hrest,
    numberOf_double (.inl rfl) ?_]
  · have hzeros : ['0'] ++ (List.replicate k '0' ++ digits) =
        List.replicate (k + 1) '0' ++ digits := by
      rw [← append_assoc]
      rfl
    simp only [Option.map_none, Option.getD_none, Option.getD_some, hzeros,
      decimalValue_zeros_append, length_append, length_replicate]
    congr 1
    push_cast
    omega
  · rintro fraction hfraction
    obtain rfl := Option.some.inj hfraction
    refine ⟨append_ne_nil_of_right_ne_nil _ h.all.1, fun c hc => ?_⟩
    rcases mem_append.mp hc with hc | hc
    · exact isDigit_replicate_zero hc
    · exact h.all.2 c hc

/-- Every layout reads back as the double nearest to the digits and the exponent. -/
theorem readNumber_layout : readNumber (layout negative digits exponent ++ rest) =
    (finiteNumber (nearestDouble negative
      (decimalValue digits (exponent - (digits.length - 1))))).map (·, rest) := by
  unfold layout
  by_cases hrange : -4 ≤ exponent ∧ exponent < 16
  · rw [if_neg (not_not.mpr hrange)]
    by_cases hwhole : (digits.length : ℤ) - 1 ≤ exponent
    · obtain ⟨k, hk⟩ : ∃ k : ℕ, exponent - (digits.length - 1) = k :=
        ⟨_, (Int.toNat_of_nonneg (by omega)).symm⟩
      rw [if_pos hwhole, hk, Int.toNat_natCast]
      exact readNumber_whole negative h hrest hk
    · rw [if_neg hwhole]
      by_cases hpoint : 0 ≤ exponent
      · obtain ⟨k, hk⟩ : ∃ k : ℕ, exponent = k := ⟨_, (Int.toNat_of_nonneg hpoint).symm⟩
        rw [if_pos hpoint, show exponent.toNat = k by omega]
        exact readNumber_point negative h hrest hk (by omega)
      · obtain ⟨k, hk⟩ : ∃ k : ℕ, -exponent - 1 = k := ⟨_, (Int.toNat_of_nonneg (by omega)).symm⟩
        rw [if_neg hpoint, hk, Int.toNat_natCast]
        exact readNumber_small negative h hrest hk
  · rw [if_pos hrange]
    exact readNumber_exponent negative h hrest

end Layouts

/-- Every number is read back from its text. -/
theorem readNumber_writeNumber {scientific : Float → List Char} (number : Number)
    (hfloats : ∀ value ∈ (Json.number number).floats, ReadsBack scientific value)
    (hrest : Stops rest) :
    readNumber (writeNumber scientific number ++ rest) = some (number, rest) := by
  cases number with
  | posInt n range =>
    have hnumber : numberOf false (Nat.toDigits 10 n) none none = some (.posInt n range) := by
      simp only [numberOf, digitsValue_toDigits, Option.isSome_none, Bool.false_eq_true, or_self,
        if_false]
      exact dif_pos range
    have hread := readNumber_integer false n hrest
    rw [hnumber] at hread
    exact hread
  | negInt n range =>
    have hnumber : numberOf true (Nat.toDigits 10 n) none none = some (.negInt n range) := by
      simp only [numberOf, digitsValue_toDigits, Option.isSome_none, Bool.false_eq_true, or_self,
        if_false, if_true]
      exact dif_pos range
    have hread := readNumber_integer true n hrest
    rw [hnumber] at hread
    exact hread
  | float value finite =>
    obtain ⟨negative, digits, exponent, h, htext, hvalue⟩ := hfloats value (mem_singleton_self _)
    rw [writeNumber, htext, floatRepr_scientificText negative h, readNumber_layout negative h hrest,
      hvalue, finiteNumber, dif_pos finite]
    rfl

/-! ### White space -/

variable {blanks : List Char}

theorem skipBlanks_append (h : ∀ c ∈ blanks, isBlankChar c) (text : List Char) :
    skipBlanks (blanks ++ text) = skipBlanks text :=
  dropWhile_append_of_pos h

theorem eat_append (h : ∀ c ∈ blanks, isBlankChar c) (c : Char) (text : List Char) :
    eat c (blanks ++ text) = eat c text := by
  rw [eat, eat, skipBlanks_append h]

theorem eat_cons (hd : isBlankChar d = false) (rest : List Char) :
    eat c (d :: rest) = if d = c then some rest else none := by
  rw [eat, skipBlanks, dropWhile_cons_of_neg (by simp [hd])]

/-- White space in front of a value is passed over. -/
theorem readValue_append (h : ∀ c ∈ blanks, isBlankChar c) (fuel : ℕ) (text : List Char) :
    readValue fuel (blanks ++ text) = readValue fuel text := by
  cases fuel with
  | zero => rfl
  | succ fuel => rw [readValue, readValue, eat_append h, eat_append h, eat_append h, skipBlanks_append h]

/-! ### Literals and numbers -/

/-- What begins with no bracket, brace or quote is a literal or a number. -/
theorem readValue_scalar {d : Char} (hblank : isBlankChar d = false) (hbrace : d ≠ '\x7b')
    (hbracket : d ≠ '[') (hquote : d ≠ '"') (fuel : ℕ) (rest : List Char) :
    readValue (fuel + 1) (d :: rest) = readScalar (d :: rest) := by
  rw [readValue, eat_cons hblank, if_neg hbrace, eat_cons hblank, if_neg hbracket,
    eat_cons hblank, if_neg hquote, skipBlanks, dropWhile_cons_of_neg (by simp [hblank])]

theorem isPrefixOf?_cons_ne (h : c ≠ d) (l r : List Char) :
    (c :: l).isPrefixOf? (d :: r) = none := by
  simp [List.isPrefixOf?, h]

variable {text : List Char} {result : Number × List Char}

/-- A number begins with a digit or a minus sign. -/
theorem head_of_readNumber (h : readNumber text = some result) :
    ∃ d tail, text = d :: tail ∧ (d = '-' ∨ d.isDigit) := by
  cases text with
  | nil => cases h
  | cons d tail =>
    refine ⟨d, tail, rfl, ?_⟩
    by_cases hminus : d = '-'
    · exact .inl hminus
    · right
      by_contra hdigit
      have hnone : readDigits (d :: tail) = none := by
        rw [readDigits, if_pos (takeWhile_cons_of_neg hdigit)]
      simp [readNumber, hminus, hnone] at h

theorem readScalar_number (h : readNumber text = some result) :
    readScalar text = some (.number result.1, result.2) := by
  obtain ⟨d, tail, rfl, hd⟩ := head_of_readNumber h
  have hletter (c : Char) (hc : c ≠ '-' ∧ c.isDigit = false) : c ≠ d := by
    rintro rfl
    rcases hd with rfl | hdigit
    · exact hc.1 rfl
    · rw [hc.2] at hdigit
      cases hdigit
  have hnone (c : Char) (hc : c ≠ '-' ∧ c.isDigit = false) (l : List Char) :
      eatLiteral (c :: l) (d :: tail) = none := isPrefixOf?_cons_ne (hletter c hc) l tail
  have hnull : eatLiteral "null".toList (d :: tail) = none := hnone 'n' (by decide) _
  have htrue : eatLiteral "true".toList (d :: tail) = none := hnone 't' (by decide) _
  have hfalse : eatLiteral "false".toList (d :: tail) = none := hnone 'f' (by decide) _
  rw [readScalar, hnull, htrue, hfalse, h]
  rfl

theorem not_blank_of_isDigit {d : Char} (h : d = '-' ∨ d.isDigit) :
    isBlankChar d = false ∧ d ≠ '\x7b' ∧ d ≠ '[' ∧ d ≠ '"' ∧ d ≠ ']' := by
  rcases h with rfl | hdigit
  · decide
  · refine ⟨?_, ?_, ?_, ?_, ?_⟩
    · rw [Bool.eq_false_iff]
      intro hblank
      simp only [isBlankChar, Bool.or_eq_true, beq_iff_eq] at hblank
      rcases hblank with ((rfl | rfl) | rfl) | rfl <;> exact absurd hdigit (by decide)
    all_goals
      rintro rfl
      exact absurd hdigit (by decide)

theorem readValue_number (h : readNumber text = some result) (fuel : ℕ) :
    readValue (fuel + 1) text = some (.number result.1, result.2) := by
  obtain ⟨d, tail, rfl, hd⟩ := head_of_readNumber h
  obtain ⟨hblank, hbrace, hbracket, hquote, -⟩ := not_blank_of_isDigit hd
  rw [readValue_scalar hblank hbrace hbracket hquote, readScalar_number h]

theorem readValue_null (fuel : ℕ) (rest : List Char) :
    readValue (fuel + 1) ("null".toList ++ rest) = some (.null, rest) := by
  have hread := readValue_scalar (d := 'n') (by decide) (by decide) (by decide) (by decide) fuel
    ("ull".toList ++ rest)
  refine hread.trans ?_
  change readScalar ("null".toList ++ rest) = _
  rw [readScalar, eatLiteral, isPrefixOf?_append]

theorem readValue_bool (truth : Bool) (fuel : ℕ) (rest : List Char) :
    readValue (fuel + 1) ((if truth then "true".toList else "false".toList) ++ rest) =
      some (.bool truth, rest) := by
  cases truth with
  | true =>
    have hread := readValue_scalar (d := 't') (by decide) (by decide) (by decide) (by decide) fuel
      ("rue".toList ++ rest)
    refine hread.trans ?_
    change readScalar ("true".toList ++ rest) = _
    have hnull : eatLiteral "null".toList ("true".toList ++ rest) = none :=
      isPrefixOf?_cons_ne (by decide) _ _
    rw [readScalar, hnull, eatLiteral, isPrefixOf?_append]
  | false =>
    have hread := readValue_scalar (d := 'f') (by decide) (by decide) (by decide) (by decide) fuel
      ("alse".toList ++ rest)
    refine hread.trans ?_
    change readScalar ("false".toList ++ rest) = _
    have hnull : eatLiteral "null".toList ("false".toList ++ rest) = none :=
      isPrefixOf?_cons_ne (by decide) _ _
    have htrue : eatLiteral "true".toList ("false".toList ++ rest) = none :=
      isPrefixOf?_cons_ne (by decide) _ _
    rw [readScalar, hnull, htrue, eatLiteral, isPrefixOf?_append]

theorem readValue_string (ensureAscii : Bool) (text : List Char) (fuel : ℕ) (rest : List Char) :
    readValue (fuel + 1) (writeString ensureAscii text ++ rest) = some (.string text, rest) := by
  have htext : writeString ensureAscii text ++ rest =
      '"' :: (text.flatMap (writeChar ensureAscii) ++ '"' :: rest) := by
    simp [writeString]
  rw [htext, readValue, eat_cons (by decide), if_neg (by decide), eat_cons (by decide),
    if_neg (by decide), eat_cons (by decide), if_pos rfl]
  dsimp only
  rw [readString_writeString]
  rfl

end Retrograd.Decision
