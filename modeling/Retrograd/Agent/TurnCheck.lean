import Retrograd.Agent.Chat

/-!
# Checking a sampled turn against the rendered history

A multi-turn stream is built once and never rendered again. After each observation the template
renders the conversation past the turn, and what it writes before the turn and inside it is
compared with what the turn was sampled after and as: exactly the sampled text, a text its
parser reads as the same turn, or a rewrite, which ends the trajectory.
-/

namespace Retrograd.Agent

open Logic

/-! ### Gaps -/

/-- The bytes two texts have in common before the first character they disagree on. -/
def firstDifference : List Char → List Char → ℕ
  | a :: l, b :: r => if a = b then a.utf8Size + firstDifference l r else 0
  | _, _ => 0

/-- How many characters stand before the last character boundary at or below a byte offset. -/
def floorBoundary : List Char → ℕ → ℕ
  | [], _ => 0
  | c :: rest, offset =>
    if c.utf8Size ≤ offset then floorBoundary rest (offset - c.utf8Size) + 1 else 0

/-- Context kept before the first difference. -/
def gapContext : ℕ := 16

/-- The most of each text shown. -/
def gapWidth : ℕ := 64

/-- The text from a character on, cut short, with an ellipsis where something was left out. -/
def excerpt (text : List Char) (start : ℕ) : String :=
  let rest := text.drop start
  (if 0 < start then "…" else "") ++ String.ofList (rest.take gapWidth)
    ++ (if gapWidth < rest.length then "…" else "")

def TextGap.between (history sampled : String) : TextGap :=
  let differs := firstDifference history.toList sampled.toList
  let start := floorBoundary history.toList (differs - gapContext)
  ⟨excerpt history.toList start, excerpt sampled.toList start⟩

/-! ### One turn -/

/-- What a parser reads out of one assistant turn, as far as telling two texts of the same turn
apart goes. -/
structure TurnReading where
  reasoning : String
  content : String
  /-- The text reads as a call, or as an attempt at one. -/
  calls : Bool

/-- One sampled turn, as the policy produced it and as its parser read it. -/
structure SampledTurn where
  text : String
  reasoning : String
  content : String

/-- How the history a template renders for a turn compares with what was sampled. -/
inductive TurnCheck where
  | exact
  | normalized (gap : TextGap)
  | rewritten (part : TurnPart) (gap : TextGap)
  deriving DecidableEq

/-- What the parser reads out of the history's version of a turn, compared with what it read
out of the sampled one. -/
def compareReading (read : String → TurnReading) (sampled : SampledTurn)
    (history : String) (gap : TextGap) : TurnCheck :=
  let expected := read history
  if expected.calls || expected.reasoning != trim sampled.reasoning then
    .rewritten .reasoning gap
  else if expected.content != trim sampled.content then .rewritten .content gap
  else .normalized gap

/-- How the history's framing before a turn extends the prompt it was sampled after: what the
history writes past the prompt, nothing when it stops short of it. -/
def openingOf (committed pre : String) : Option String :=
  match stripFront pre committed with
  | some opening => some opening
  | none => if startsWith committed pre then some "" else none

/-- Checks one turn the first time the conversation is rendered past it. `committed` is the text
the turn was sampled after; without a parser of reasoning blocks only an exact history is
accepted. -/
def verifyTurn (committed : String) (sampled : SampledTurn) (pieces : TurnPieces)
    (read : Option (String → TurnReading)) : TurnCheck :=
  let mid := pieces.mid.getD ""
  let reasoning := if pieces.mid.isSome then sampled.reasoning else ""
  let head := pieces.pre ++ reasoning ++ mid
  let actual := committed ++ sampled.text
  if committed.utf8ByteSize ≤ head.utf8ByteSize && startsWith actual head then .exact
  else
    let gap := TextGap.between head actual
    match openingOf committed pieces.pre with
    | none => .rewritten .before (.between pieces.pre committed)
    | some opening =>
      match read with
      | none =>
        if pieces.pre.utf8ByteSize ≤ firstDifference head.toList actual.toList
            && pieces.mid.isSome then
          .rewritten .reasoning gap
        else .rewritten .before gap
      | some read =>
        compareReading read sampled (opening ++ reasoning ++ mid ++ sampled.content) gap

/-! ### Turns already checked -/

/-- How one turn's framing moved between two renders, if it did. -/
def movedTurn (checked rendered : TurnPieces) : Option (TurnPart × TextGap) :=
  if rendered.pre ≠ checked.pre then some (.before, .between rendered.pre checked.pre)
  else if rendered.mid ≠ checked.mid then
    some (.reasoning, .between (rendered.mid.getD "") (checked.mid.getD ""))
  else none

/-- The first piece a later render moved, among turns already checked. -/
def movedPiece (checked rendered : List TurnPieces) : Option (ℕ × TurnPart × TextGap) :=
  ((checked.zip rendered).zipIdx).findSome? fun entry =>
    (movedTurn entry.1.1 entry.1.2).map fun moved => (entry.2, moved)

end Retrograd.Agent
