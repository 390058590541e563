import Retrograd.Infer.Request

/-!
# Incremental detokenization

A `Detokenizer` turns the piece bytes of one sequence's tokens into emittable text. Two things
are held back: a trailing **incomplete character** (`pending`) and a trailing **possible stop
prefix** (`held`). When a stop string completes, everything before it is emitted and nothing
after it ever is. Decoding is lossy in the standard way: each maximal invalid subsequence is
one replacement character (`utf8Step`).
-/

namespace Retrograd.Infer

/-- How a byte string starts: with a complete character, with an invalid sequence, or with the
beginning of a character whose end has not arrived. -/
inductive Utf8Step where
  | char (length : ℕ)
  | invalid (length : ℕ)
  | incomplete
  deriving DecidableEq, Repr

/-- Checks `k` continuation bytes after `read` bytes were accepted. -/
def utf8Tail (read : ℕ) : ℕ → Bytes → Utf8Step
  | 0, _ => .char read
  | _ + 1, [] => .incomplete
  | k + 1, b :: rest =>
    if 0x80 ≤ b && b ≤ 0xBF then utf8Tail (read + 1) k rest else .invalid read

/-- The first byte after a lead byte is bounded more tightly than the others: overlong forms,
surrogates and code points past the last plane are refused there. -/
def utf8Second (lo hi : UInt8) (k : ℕ) : Bytes → Utf8Step
  | [] => .incomplete
  | b :: rest => if lo ≤ b && b ≤ hi then utf8Tail 2 k rest else .invalid 1

/-- The first step of `std::str::from_utf8` on a byte string. -/
def utf8Step : Bytes → Utf8Step
  | [] => .incomplete
  | b :: rest =>
    if b < 0x80 then .char 1
    else if 0xC2 ≤ b && b ≤ 0xDF then utf8Second 0x80 0xBF 0 rest
    else if b = 0xE0 then utf8Second 0xA0 0xBF 1 rest
    else if b = 0xED then utf8Second 0x80 0x9F 1 rest
    else if 0xE1 ≤ b && b ≤ 0xEF then utf8Second 0x80 0xBF 1 rest
    else if b = 0xF0 then utf8Second 0x90 0xBF 2 rest
    else if 0xF1 ≤ b && b ≤ 0xF3 then utf8Second 0x80 0xBF 2 rest
    else if b = 0xF4 then utf8Second 0x80 0x8F 2 rest
    else .invalid 1

/-- The replacement character U+FFFD. -/
def replacementChar : Bytes := [0xEF, 0xBF, 0xBD]

/-- Splits a byte string into the text it decodes to and its incomplete tail. Every round
consumes a byte, so the length of the string is fuel enough. -/
def drainUtf8 : ℕ → Bytes → Bytes × Bytes
  | 0, bytes => ([], bytes)
  | fuel + 1, bytes =>
    match utf8Step bytes with
    | .char n => ((drainUtf8 fuel (bytes.drop n)).map (bytes.take n ++ ·) id)
    | .invalid n => ((drainUtf8 fuel (bytes.drop n)).map (replacementChar ++ ·) id)
    | .incomplete => ([], bytes)

/-- `String::from_utf8_lossy`. -/
def fromUtf8Lossy (bytes : Bytes) : Bytes :=
  let (text, tail) := drainUtf8 bytes.length bytes
  if tail.isEmpty then text else text ++ replacementChar

/-- The first position of `needle` in `hay`. -/
def stopPosition (needle : Bytes) : Bytes → Option ℕ
  | [] => if needle.isEmpty then some 0 else none
  | hay@(_ :: rest) =>
    if needle.isPrefixOf hay then some 0 else (stopPosition needle rest).map (· + 1)

/-- The incremental detokenizer of one sequence. -/
structure Detokenizer where
  stops : List Bytes
  maxStop : ℕ
  /-- Piece bytes not yet forming a complete character. -/
  pending : Bytes
  /-- Complete characters not yet emitted. -/
  held : Bytes
  /-- Set once a stop matched: no further text is produced. -/
  stopped : Bool
  deriving DecidableEq, Repr

namespace Detokenizer

/-- A fresh detokenizer; empty stop strings are ignored. -/
def new (stops : List Bytes) : Detokenizer :=
  let stops := stops.filter fun stop => !stop.isEmpty
  { stops, maxStop := (stops.map List.length).foldr max 0, pending := [], held := [],
    stopped := false }

/-- The longest proper prefix of `stop`, longer than `hold`, that ends `held`. -/
def holdFor (held : Bytes) (hold : ℕ) (stop : Bytes) : ℕ :=
  let fits k := hold < k && k ≤ held.length && held.drop (held.length - k) == stop.take k
  ((List.range stop.length).reverse.find? fun k => 1 ≤ k && fits k).getD hold

/-- Feeds one token's piece bytes. Returns the text that can be emitted now, and whether a
stop string completed. -/
def pushBytes (d : Detokenizer) (bytes : Bytes) : (Bytes × Bool) × Detokenizer :=
  if d.stopped then (([], true), d)
  else
    let drained := drainUtf8 (d.pending ++ bytes).length (d.pending ++ bytes)
    let held := d.held ++ drained.1
    match (d.stops.filterMap (stopPosition · held)).min? with
    | some keep => ((held.take keep, true), { d with held := [], pending := [], stopped := true })
    | none =>
      let hold := if d.maxStop > 1 then d.stops.foldl (holdFor held) 0 else 0
      let split := held.length - hold
      ((held.take split, false), { d with held := held.drop split, pending := drained.2 })

/-- End of the stream without a stop: flushes the held-back tail. -/
def finish (d : Detokenizer) : Bytes × Detokenizer :=
  (d.held ++ fromUtf8Lossy d.pending, { d with held := [], pending := [] })

end Detokenizer

end Retrograd.Infer
