import Retrograd.Logic.Decimal

/-!
# JSON values and texts

A JSON value keeps the keys of its objects in the order they were written. A text is read by the
JSON grammar: white space between tokens, the escapes of strings with surrogate pairs above the
basic plane, and numbers that are integers of 64 bits where they can be and the **nearest** double
otherwise.
-/

namespace Retrograd.Decision

open Logic

/-! ### Values -/

/-- A JSON number: an integer of 64 bits or a finite double. -/
inductive Number where
  | posInt (n : ℕ) (range : n < 2 ^ 64)
  /-- The integer `-n`. -/
  | negInt (n : ℕ) (range : 0 < n ∧ n ≤ 2 ^ 63)
  | float (value : Float) (finite : value.isFinite)

inductive Json where
  | null
  | bool (truth : Bool)
  | number (number : Number)
  | string (text : List Char)
  | array (items : List Json)
  | object (members : List (List Char × Json))

/-- Sets a member of an object: in place if it is there already, last otherwise. -/
def insertMember (key : List Char) (value : Json) :
    List (List Char × Json) → List (List Char × Json)
  | [] => [(key, value)]
  | (other, old) :: members =>
    if other = key then (other, value) :: members
    else (other, old) :: insertMember key value members

mutual

/-- How many arrays and objects a value is nested in, at its deepest place. -/
def Json.nesting : Json → ℕ
  | .array items => nestingItems items
  | .object members => nestingMembers members
  | _ => 0

def nestingItems : List Json → ℕ
  | [] => 0
  | item :: items => max (item.nesting + 1) (nestingItems items)

def nestingMembers : List (List Char × Json) → ℕ
  | [] => 0
  | (_, item) :: members => max (item.nesting + 1) (nestingMembers members)

end

mutual

/-- The keys of every object are different. -/
def Json.Distinct : Json → Prop
  | .array items => DistinctItems items
  | .object members => (members.map Prod.fst).Nodup ∧ DistinctMembers members
  | _ => True

def DistinctItems : List Json → Prop
  | [] => True
  | item :: items => item.Distinct ∧ DistinctItems items

def DistinctMembers : List (List Char × Json) → Prop
  | [] => True
  | (_, item) :: members => item.Distinct ∧ DistinctMembers members

end

mutual

/-- The doubles in a value. -/
def Json.floats : Json → List Float
  | .number (.float value _) => [value]
  | .array items => floatsItems items
  | .object members => floatsMembers members
  | _ => []

def floatsItems : List Json → List Float
  | [] => []
  | item :: items => item.floats ++ floatsItems items

def floatsMembers : List (List Char × Json) → List Float
  | [] => []
  | (_, item) :: members => item.floats ++ floatsMembers members

end

/-! ### Tokens -/

/-- White space between tokens. -/
def isBlankChar (c : Char) : Bool := c == ' ' || c == '\t' || c == '\n' || c == '\r'

def skipBlanks (text : List Char) : List Char := text.dropWhile isBlankChar

/-- Reads one character, behind white space. -/
def eat (c : Char) (text : List Char) : Option (List Char) :=
  match skipBlanks text with
  | [] => none
  | d :: rest => if d = c then some rest else none

/-- Reads a literal. -/
def eatLiteral (literal : List Char) (text : List Char) : Option (List Char) :=
  literal.isPrefixOf? text

/-! ### Strings -/

def hexValue (c : Char) : Option ℕ :=
  if '0' ≤ c ∧ c ≤ '9' then some (c.toNat - '0'.toNat)
  else if 'a' ≤ c ∧ c ≤ 'f' then some (c.toNat - 'a'.toNat + 10)
  else if 'A' ≤ c ∧ c ≤ 'F' then some (c.toNat - 'A'.toNat + 10)
  else none

/-- Reads the four digits of a `\u` escape. -/
def readUnit : List Char → Option (ℕ × List Char)
  | a :: b :: c :: d :: rest => do
    let a ← hexValue a
    let b ← hexValue b
    let c ← hexValue c
    let d ← hexValue d
    some (a * 4096 + b * 256 + c * 16 + d, rest)
  | _ => none

/-- Reads what follows `\u`: one unit, or the two of a surrogate pair. -/
def readUnicode (text : List Char) : Option (Char × List Char) := do
  let (unit, rest) ← readUnit text
  if 0xd800 ≤ unit ∧ unit < 0xdc00 then
    let rest ← eatLiteral ['\\', 'u'] rest
    let (low, rest) ← readUnit rest
    if 0xdc00 ≤ low ∧ low < 0xe000 then
      some (Char.ofNat (0x10000 + (unit - 0xd800) * 0x400 + (low - 0xdc00)), rest)
    else none
  else if 0xdc00 ≤ unit ∧ unit < 0xe000 then none
  else some (Char.ofNat unit, rest)

/-- The character of a short escape. -/
def shortEscape (c : Char) : Option Char :=
  if c = '"' ∨ c = '\\' ∨ c = '/' then some c
  else if c = 'b' then some '\x08'
  else if c = 'f' then some '\x0c'
  else if c = 'n' then some '\n'
  else if c = 'r' then some '\r'
  else if c = 't' then some '\t'
  else none

/-- Reads one character of a string. -/
def readChar : List Char → Option (Char × List Char)
  | [] => none
  | c :: rest =>
    if c = '\\' then
      match rest with
      | [] => none
      | escape :: rest =>
        if escape = 'u' then readUnicode rest else (shortEscape escape).map (·, rest)
    else if c.toNat < 0x20 then none
    else some (c, rest)

/-- Reads the characters of a string up to the quote that ends it. -/
def readChars : ℕ → List Char → Option (List Char × List Char)
  | 0, _ => none
  | fuel + 1, text =>
    match text with
    | [] => none
    | c :: rest =>
      if c = '"' then some ([], rest)
      else do
        let (d, rest) ← readChar text
        let (chars, rest) ← readChars fuel rest
        some (d :: chars, rest)

/-- Reads a string, behind its opening quote. -/
def readString (text : List Char) : Option (List Char × List Char) := readChars text.length text

/-! ### Numbers -/

/-- Reads one or more digits. -/
def readDigits (text : List Char) : Option (List Char × List Char) :=
  if text.takeWhile Char.isDigit = [] then none
  else some (text.takeWhile Char.isDigit, text.dropWhile Char.isDigit)

/-- Reads the digits behind a point, if there is one. -/
def readFraction : List Char → Option (Option (List Char) × List Char)
  | [] => some (none, [])
  | c :: rest =>
    if c = '.' then (readDigits rest).map fun (digits, rest) => (some digits, rest)
    else some (none, c :: rest)

/-- Reads a sign. -/
def readSign : List Char → Bool × List Char
  | [] => (false, [])
  | c :: rest => if c = '-' then (true, rest) else if c = '+' then (false, rest) else (false, c :: rest)

/-- Reads the power of ten, if there is one. -/
def readExponent : List Char → Option (Option ℤ × List Char)
  | [] => some (none, [])
  | c :: rest =>
    if c = 'e' ∨ c = 'E' then
      let (negative, rest) := readSign rest
      (readDigits rest).map fun (digits, rest) =>
        (some (if negative then -(digitsValue digits : ℤ) else digitsValue digits), rest)
    else some (none, c :: rest)

/-- A double, when it is finite. -/
def finiteNumber (value : Float) : Option Number :=
  if h : value.isFinite then some (.float value h) else none

/-- The number with these digits. -/
def numberOf (negative : Bool) (whole : List Char) (fraction : Option (List Char))
    (exponent : Option ℤ) : Option Number :=
  let n := digitsValue whole
  let double := finiteNumber (nearestDouble negative
    (decimalValue (whole ++ fraction.getD []) (exponent.getD 0 - (fraction.getD []).length)))
  if fraction.isSome ∨ exponent.isSome then double
  else if negative then
    if h : 0 < n ∧ n ≤ 2 ^ 63 then some (.negInt n h) else double
  else if h : n < 2 ^ 64 then some (.posInt n h)
  else double

/-- Reads a number. -/
def readNumber (text : List Char) : Option (Number × List Char) := do
  let negative := decide (text.head? = some '-')
  let (whole, rest) ← readDigits (if negative then text.tail else text)
  -- no zero in front of other digits
  if whole.head? = some '0' ∧ 1 < whole.length then none
  else
    let (fraction, rest) ← readFraction rest
    let (exponent, rest) ← readExponent rest
    let number ← numberOf negative whole fraction exponent
    some (number, rest)

/-! ### Texts -/

/-- Reads a literal or a number. -/
def readScalar (text : List Char) : Option (Json × List Char) :=
  match eatLiteral "null".toList text with
  | some rest => some (.null, rest)
  | none =>
    match eatLiteral "true".toList text with
    | some rest => some (.bool true, rest)
    | none =>
      match eatLiteral "false".toList text with
      | some rest => some (.bool false, rest)
      | none => (readNumber text).map fun (number, rest) => (.number number, rest)

mutual

/-- Reads a value. -/
def readValue : ℕ → List Char → Option (Json × List Char)
  | 0, _ => none
  | fuel + 1, text =>
    match eat '\x7b' text with
    | some rest =>
      match eat '\x7d' rest with
      | some rest => some (.object [], rest)
      | none => readMembers fuel [] rest
    | none =>
      match eat '[' text with
      | some rest =>
        match eat ']' rest with
        | some rest => some (.array [], rest)
        | none => readItems fuel [] rest
      | none =>
        match eat '"' text with
        | some rest => (readString rest).map fun (chars, rest) => (.string chars, rest)
        | none => readScalar (skipBlanks text)

/-- Reads the items of an array up to its end, behind those already read. -/
def readItems : ℕ → List Json → List Char → Option (Json × List Char)
  | 0, _, _ => none
  | fuel + 1, items, text => do
    let (item, rest) ← readValue fuel text
    match eat ',' rest with
    | some rest => readItems fuel (items ++ [item]) rest
    | none =>
      let rest ← eat ']' rest
      some (.array (items ++ [item]), rest)

/-- Reads the members of an object up to its end, behind those already read. -/
def readMembers : ℕ → List (List Char × Json) → List Char → Option (Json × List Char)
  | 0, _, _ => none
  | fuel + 1, members, text => do
    let rest ← eat '"' text
    let (key, rest) ← readString rest
    let rest ← eat ':' rest
    let (item, rest) ← readValue fuel rest
    match eat ',' rest with
    | some rest => readMembers fuel (insertMember key item members) rest
    | none =>
      let rest ← eat '\x7d' rest
      some (.object (insertMember key item members), rest)

end

/-- The value of a JSON text. -/
def parse (text : List Char) : Option Json := do
  let (value, rest) ← readValue (text.length + 1) text
  if skipBlanks rest = [] then some value else none

end Retrograd.Decision
