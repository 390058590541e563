import Retrograd.Decision.Json
import Retrograd.Decision.Laya

/-!
# JSON as Python prints it

The texts of `json.dumps` and of `repr` of a float. Some inputs are rendered with them, since the
model was trained on those texts. The digits of a float come from the standard library; the
**layout** they are written in is chosen here, by their number and the exponent.
-/

namespace Retrograd.Decision

open Logic

/-- Values nested deeper than this are refused. -/
def recursionLimit : ℕ := 128

def tooDeep : DecisionError :=
  .invalidRequest s!"JSON is nested more than {recursionLimit} levels deep"

/-- The options of a `json.dumps` call. -/
structure Dumps where
  /-- `none` writes everything on one line. -/
  indent : Option ℕ
  itemSeparator : List Char
  keySeparator : List Char
  ensureAscii : Bool

/-- The options the state is written with. -/
def stateDumps : Dumps := ⟨none, [','], [':'], false⟩
/-- The options the instructions are written with. -/
def instructionsDumps : Dumps := ⟨some 1, [','], [':', ' '], true⟩
/-- The options the description of an option is written with. -/
def descriptionDumps : Dumps := ⟨none, [',', ' '], [':', ' '], false⟩

/-! ### Strings -/

/-- Four hexadecimal digits: `{:04x}` of a number below 65536. -/
def hex4 (n : ℕ) : List Char :=
  [n / 4096 % 16, n / 256 % 16, n / 16 % 16, n % 16].map Nat.digitChar

/-- The UTF-16 code units of a character. -/
def encodeUtf16 (c : Char) : List ℕ :=
  if c.toNat < 0x10000 then [c.toNat]
  else [0xd800 + (c.toNat - 0x10000) / 0x400, 0xdc00 + (c.toNat - 0x10000) % 0x400]

/-- What is written for a character of a string. -/
def writeChar (ensureAscii : Bool) (c : Char) : List Char :=
  if c = '"' then ['\\', '"']
  else if c = '\\' then ['\\', '\\']
  else if c = '\x08' then ['\\', 'b']
  else if c = '\x0c' then ['\\', 'f']
  else if c = '\n' then ['\\', 'n']
  else if c = '\r' then ['\\', 'r']
  else if c = '\t' then ['\\', 't']
  else if c.toNat < 0x20 ∨ (ensureAscii ∧ c.toNat = 0x7f) then '\\' :: 'u' :: hex4 c.toNat
  else if c.toNat < 0x80 ∨ ¬ ensureAscii then [c]
  else (encodeUtf16 c).flatMap fun unit => '\\' :: 'u' :: hex4 unit

/-- A JSON string as `json.dumps` writes it. -/
def writeString (ensureAscii : Bool) (text : List Char) : List Char :=
  '"' :: text.flatMap (writeChar ensureAscii) ++ ['"']

/-! ### Floats -/

/-- `text.parse::<i64>()`. -/
def parseI64 (text : List Char) : Option ℤ :=
  let (negative, digits) := readSign text
  if digits = [] ∨ ¬ digits.all Char.isDigit then none
  else
    let n : ℤ := if negative then -(digitsValue digits : ℤ) else digitsValue digits
    if -2 ^ 63 ≤ n ∧ n < 2 ^ 63 then some n else none

/-- Decimal digits of a number, at least two. -/
def twoDigits (n : ℕ) : List Char :=
  if n < 10 then '0' :: Nat.toDigits 10 n else Nat.toDigits 10 n

/-- `repr()` of a Python float, from its shortest digits in exponent form: `-1.25e3`. -/
def floatRepr (scientific : List Char) : List Char :=
  let mantissa := scientific.takeWhile (· ≠ 'e')
  let exponent :=
    if 'e' ∈ scientific then (parseI64 (scientific.dropWhile (· ≠ 'e')).tail).getD 0 else 0
  let sign := if mantissa.head? = some '-' then ['-'] else []
  let digits := mantissa.filter Char.isDigit
  let n : ℤ := digits.length
  if ¬ (-4 ≤ exponent ∧ exponent < 16) then
    let fraction := if 1 < digits.length then '.' :: digits.drop 1 else []
    sign ++ digits.take 1 ++ fraction ++ ['e', if exponent < 0 then '-' else '+']
      ++ twoDigits exponent.natAbs
  else if n - 1 ≤ exponent then
    sign ++ digits ++ List.replicate (exponent - (n - 1)).toNat '0' ++ ['.', '0']
  else if 0 ≤ exponent then
    let point := exponent.toNat + 1
    sign ++ digits.take point ++ '.' :: digits.drop point
  else sign ++ ['0', '.'] ++ List.replicate (-exponent - 1).toNat '0' ++ digits

/-! ### Values -/

section

/- The standard library's exponent form of a float, `format!("{value:e}")`. -/
variable (scientific : Float → List Char)

/-- The text of a number. -/
def writeNumber : Number → List Char
  | .posInt n _ => Nat.toDigits 10 n
  | .negInt n _ => '-' :: Nat.toDigits 10 n
  | .float value _ => floatRepr (scientific value)

variable (options : Dumps)

/-- The line break in front of an item, when there is one. -/
def newline (level : ℕ) : List Char :=
  match options.indent with
  | some indent => '\n' :: List.replicate (indent * level) ' '
  | none => []

/-- What separates an item from the one before it. -/
def separator (first : Bool) : List Char := if first then [] else options.itemSeparator

mutual

/-- The text of a value. -/
def dump (level : ℕ) (value : Json) : Except DecisionError (List Char) :=
  if recursionLimit ≤ level then .error tooDeep
  else
    match value with
    | .null => .ok "null".toList
    | .bool true => .ok "true".toList
    | .bool false => .ok "false".toList
    | .number number => .ok (writeNumber scientific number)
    | .string text => .ok (writeString options.ensureAscii text)
    | .array [] => .ok ['[', ']']
    | .array (item :: items) => do
      let body ← dumpItems level true (item :: items)
      .ok ('[' :: body ++ newline options level ++ [']'])
    | .object [] => .ok ['\x7b', '\x7d']
    | .object (member :: members) => do
      let body ← dumpMembers level true (member :: members)
      .ok ('\x7b' :: body ++ newline options level ++ ['\x7d'])

/-- The texts of the items of an array. -/
def dumpItems (level : ℕ) (first : Bool) : List Json → Except DecisionError (List Char)
  | [] => .ok []
  | item :: items => do
    let text ← dump (level + 1) item
    let rest ← dumpItems level false items
    .ok (separator options first ++ newline options (level + 1) ++ text ++ rest)

/-- The texts of the members of an object. -/
def dumpMembers (level : ℕ) (first : Bool) :
    List (List Char × Json) → Except DecisionError (List Char)
  | [] => .ok []
  | (key, item) :: members => do
    let text ← dump (level + 1) item
    let rest ← dumpMembers level false members
    .ok (separator options first ++ newline options (level + 1)
      ++ writeString options.ensureAscii key ++ options.keySeparator ++ text ++ rest)

end

/-- `json.dumps(value, ...)`, keys in their order. -/
def dumps (value : Json) : Except DecisionError (List Char) := dump scientific options 0 value

end

end Retrograd.Decision
