import Mathlib.Data.List.Infix

/-!
# Text

The operations on text the development's functions use, on the characters of a `String`:
trimming, prefixes, and positions counted in UTF-8 bytes. The white space that `str::trim`
strips is the code points with the Unicode property `White_Space`; a text is blank when
trimming leaves nothing of it.
-/

namespace Retrograd.Logic

/-- The code points with the property `White_Space`. -/
def isWhitespace (c : Char) : Bool :=
  let n := c.toNat
  (9 ≤ n && n ≤ 13) || n == 0x20 || n == 0x85 || n == 0xa0 || n == 0x1680
    || (0x2000 ≤ n && n ≤ 0x200a) || n == 0x2028 || n == 0x2029 || n == 0x202f || n == 0x205f
    || n == 0x3000

/-- `s.trim().is_empty()`. -/
def isBlank (s : String) : Bool := s.toList.all isWhitespace

/-- `s.trim()`. -/
def trim (s : String) : String :=
  String.ofList (((s.toList.dropWhile isWhitespace).reverse.dropWhile isWhitespace).reverse)

/-- `s.starts_with(front)`. -/
def startsWith (s front : String) : Bool := front.toList.isPrefixOf s.toList

/-- `s.strip_prefix(front)`. -/
def stripFront (s front : String) : Option String :=
  (front.toList.isPrefixOf? s.toList).map String.ofList

theorem isPrefixOf?_append {α : Type} [BEq α] [LawfulBEq α] (l r : List α) :
    l.isPrefixOf? (l ++ r) = some r := by
  induction l with
  | nil => rfl
  | cons a l ih => simp [List.isPrefixOf?, ih]

/-- A text that was put in front is stripped off again. -/
@[simp] theorem stripFront_append (front s : String) : stripFront (front ++ s) front = some s := by
  rw [stripFront, String.toList_append, isPrefixOf?_append]
  simp

theorem isSome_stripFront {s front : String} :
    (stripFront s front).isSome ↔ front.toList <+: s.toList := by
  rw [stripFront, Option.isSome_map]
  generalize front.toList = l
  generalize s.toList = r
  induction l generalizing r with
  | nil => simp [List.isPrefixOf?]
  | cons a l ih =>
    cases r with
    | nil => simp [List.isPrefixOf?]
    | cons b r =>
      rw [List.isPrefixOf?, List.cons_prefix_cons]
      by_cases h : a = b
      · simp [h]
      · simp [h]

end Retrograd.Logic
