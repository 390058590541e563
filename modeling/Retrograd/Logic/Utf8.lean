import Mathlib.Data.List.Basic

/-!
# UTF-8 in pieces

A byte stream is decoded a byte at a time. Between two bytes there may be a **partial** character:
the bytes it has and the ranges of those it still owes. What is malformed becomes the replacement
character, a maximal part at a time. As decoding is a fold, it does not matter how the stream was
cut (`decode_append`): what is left over goes before what comes next.
-/

namespace Retrograd.Logic

open List

/-- The least and the greatest byte there may be. -/
abbrev ByteRange := UInt8 × UInt8

def ByteRange.Has (range : ByteRange) (b : UInt8) : Prop := range.1 ≤ b ∧ b ≤ range.2

instance (range : ByteRange) (b : UInt8) : Decidable (range.Has b) :=
  inferInstanceAs (Decidable (_ ∧ _))

/-- A continuation byte. -/
def continuation : ByteRange := (0x80, 0xBF)

/-- The bytes a first byte owes; `none` where no character begins with it. -/
def owes (b : UInt8) : Option (List ByteRange) :=
  if b < 0x80 then some []
  else if 0xC2 ≤ b ∧ b ≤ 0xDF then some [continuation]
  else if b = 0xE0 then some [(0xA0, 0xBF), continuation]
  else if b = 0xED then some [(0x80, 0x9F), continuation]
  else if 0xE1 ≤ b ∧ b ≤ 0xEF then some [continuation, continuation]
  else if b = 0xF0 then some [(0x90, 0xBF), continuation, continuation]
  else if 0xF1 ≤ b ∧ b ≤ 0xF3 then some [continuation, continuation, continuation]
  else if b = 0xF4 then some [(0x80, 0x8F), continuation, continuation]
  else none

/-- U+FFFD. -/
def replacement : List UInt8 := [0xEF, 0xBF, 0xBD]

/-- A character that has begun: what it has, and what it owes. -/
structure PartialChar where
  bytes : List UInt8
  owed : List ByteRange

/-- Between characters. -/
def PartialChar.none : PartialChar := ⟨[], []⟩

namespace PartialChar

/-- A byte that begins a character, or none. -/
def begin (b : UInt8) : List UInt8 × PartialChar :=
  match owes b with
  | .none => (replacement, .none)
  | some [] => ([b], .none)
  | some (range :: owed) => ([], ⟨[b], range :: owed⟩)

/-- One byte: the text it completes, and what is partial after it. -/
def step (p : PartialChar) (b : UInt8) : List UInt8 × PartialChar :=
  match p.owed with
  | [] => begin b
  | range :: owed =>
    if range.Has b then
      match owed with
      | [] => (p.bytes ++ [b], .none)
      | next :: owed => ([], ⟨p.bytes ++ [b], next :: owed⟩)
    else (replacement ++ (begin b).1, (begin b).2)

end PartialChar

/-- The text of a stream, and the character it leaves partial. -/
def decodeFrom (p : PartialChar) : List UInt8 → List UInt8 × PartialChar
  | [] => ([], p)
  | b :: bytes =>
    let next := p.step b
    let rest := decodeFrom next.2 bytes
    (next.1 ++ rest.1, rest.2)

/-- The complete characters of a buffer, and the bytes of the one at its end that is not. -/
def decode (bytes : List UInt8) : List UInt8 × List UInt8 :=
  let decoded := decodeFrom .none bytes
  (decoded.1, decoded.2.bytes)

/-- The whole text of a buffer: a character that is cut off is malformed. -/
def lossy (bytes : List UInt8) : List UInt8 :=
  if (decode bytes).2 = [] then (decode bytes).1 else (decode bytes).1 ++ replacement

theorem decodeFrom_append (p : PartialChar) (bytes bytes' : List UInt8) :
    decodeFrom p (bytes ++ bytes') = ((decodeFrom p bytes).1 ++
      (decodeFrom (decodeFrom p bytes).2 bytes').1, (decodeFrom (decodeFrom p bytes).2 bytes').2) := by
  induction bytes generalizing p with
  | nil => rfl
  | cons b bytes ih =>
    simp only [cons_append, decodeFrom, ih, append_assoc]

/-! ### Characters that are partial -/

/-- What is owed are continuation bytes. -/
theorem continuation_of_owes {b b' : UInt8} {owed : List ByteRange} (h : owes b = some owed)
    {range : ByteRange} (hrange : range ∈ owed) (hhas : range.Has b') : continuation.Has b' := by
  have hwithin : (0x80 : UInt8) ≤ range.1 ∧ range.2 ≤ 0xBF := by
    unfold owes at h
    split_ifs at h <;> cases h <;>
      simp only [mem_cons, not_mem_nil, or_false, or_self] at hrange
    all_goals
      first
        | exact hrange.elim
        | (rcases hrange with rfl | rfl <;> decide)
  exact ⟨UInt8.le_trans hwithin.1 hhas.1, UInt8.le_trans hhas.2 hwithin.2⟩

/-- A partial character is what its bytes leave partial, and owes continuation bytes. -/
structure PartialChar.Sound (p : PartialChar) : Prop where
  decodes : decodeFrom .none p.bytes = ([], p)
  continues : ∀ range ∈ p.owed, ∀ b, range.Has b → continuation.Has b

theorem PartialChar.Sound.none : PartialChar.none.Sound :=
  ⟨rfl, fun _ h => absurd h not_mem_nil⟩

theorem PartialChar.Sound.begin (b : UInt8) : (PartialChar.begin b).2.Sound := by
  unfold PartialChar.begin
  split
  · exact .none
  · exact .none
  · next range owed howes =>
    refine ⟨?_, fun _ hrange _ => continuation_of_owes howes hrange⟩
    simp only [decodeFrom, PartialChar.step, PartialChar.none, PartialChar.begin, howes,
      append_nil]

theorem PartialChar.Sound.step {p : PartialChar} (h : p.Sound) (b : UInt8) : (p.step b).2.Sound := by
  unfold PartialChar.step
  split
  · exact .begin b
  · next range owed howed =>
    split
    · next hhas =>
      split
      · exact .none
      · next next owed =>
        refine ⟨?_, fun range' hrange' => h.continues range' ?_⟩
        swap
        · rw [howed]
          exact mem_cons_of_mem _ hrange'
        rw [decodeFrom_append, h.decodes]
        simp only [decodeFrom, PartialChar.step, howed, if_pos hhas, append_nil]
    · exact .begin b

theorem PartialChar.Sound.decodeFrom {p : PartialChar} (h : p.Sound) (bytes : List UInt8) :
    (decodeFrom p bytes).2.Sound := by
  induction bytes generalizing p with
  | nil => exact h
  | cons b bytes ih => exact ih (h.step b)

/-- **Decoding goes on from what was left over.** -/
theorem decode_append (bytes bytes' : List UInt8) :
    decode (bytes ++ bytes') =
      ((decode bytes).1 ++ (decode ((decode bytes).2 ++ bytes')).1,
        (decode ((decode bytes).2 ++ bytes')).2) := by
  have hsound := PartialChar.Sound.none.decodeFrom bytes
  have hrest : decodeFrom .none ((decodeFrom .none bytes).2.bytes ++ bytes') =
      decodeFrom (decodeFrom .none bytes).2 bytes' := by
    rw [decodeFrom_append, hsound.decodes]
    rfl
  simp only [decode, decodeFrom_append _ bytes, hrest]

/-- What is left over holds no text. -/
theorem decode_rest (bytes : List UInt8) : decode (decode bytes).2 = ([], (decode bytes).2) := by
  have hsound := PartialChar.Sound.none.decodeFrom bytes
  simp only [decode, hsound.decodes]

theorem lossy_eq (bytes : List UInt8) :
    lossy bytes = (decode bytes).1 ++ lossy (decode bytes).2 := by
  unfold lossy
  rw [decode_rest]
  dsimp only
  split
  · rw [append_nil]
  · rfl

/-! ### Well-formed text -/

/-- Text that is all characters. -/
def IsUtf8 (text : List UInt8) : Prop := decode text = (text, [])

instance (text : List UInt8) : Decidable (IsUtf8 text) := inferInstanceAs (Decidable (_ = _))

/-- `str::is_char_boundary`. -/
def isCharBoundary (text : List UInt8) (i : ℕ) : Bool :=
  i == 0 || i == text.length || text[i]?.any fun b => !decide (continuation.Has b)

/-- No character begins with a continuation byte. -/
theorem owes_of_continuation {b : UInt8} (h : continuation.Has b) : owes b = none := by
  obtain ⟨hlow, hhigh⟩ := h
  simp only [continuation, UInt8.le_iff_toNat_le, UInt8.reduceToNat] at hlow hhigh
  have hne {b' : UInt8} (hlarge : 0xBF < b'.toNat) : b ≠ b' := fun heq => by
    rw [heq] at hhigh
    omega
  unfold owes
  rw [if_neg, if_neg, if_neg (hne (by decide)), if_neg (hne (by decide)), if_neg,
    if_neg (hne (by decide)), if_neg, if_neg (hne (by decide))]
  all_goals
    simp only [UInt8.le_iff_toNat_le, UInt8.lt_iff_toNat_lt, UInt8.reduceToNat]
    omega

theorem IsUtf8.head {b : UInt8} {text : List UInt8} (h : IsUtf8 (b :: text)) :
    ¬ continuation.Has b := fun hhas => by
  -- the text would begin with a replacement character, which begins with another byte
  have hbegin : PartialChar.begin b = (replacement, .none) := by
    rw [PartialChar.begin, owes_of_continuation hhas]
  have htext : (PartialChar.begin b).1 ++ (decodeFrom (PartialChar.begin b).2 text).1 = b :: text :=
    congrArg Prod.fst h
  rw [hbegin] at htext
  obtain rfl : (0xEF : UInt8) = b := (cons.inj htext).1
  exact absurd hhas (by decide)

/-- A byte that begins a character of three does so wherever it stands. -/
private theorem decodeFrom_lead {p : PartialChar} (h : p.Sound) :
    (decodeFrom p [0xEF]).2 = ⟨[0xEF], [continuation, continuation]⟩ := by
  simp only [decodeFrom, PartialChar.step]
  split
  · rfl
  · next range owed howed =>
    have hnot : ¬ range.Has 0xEF := fun hhas => by
      have := h.continues range (howed ▸ mem_cons_self) _ hhas
      exact absurd this (by decide)
    rw [if_neg hnot]
    rfl

/-- Text does not end in the first byte of the replacement character, nor in its first two. -/
theorem not_isUtf8_of_cut {text : List UInt8} (cut : List UInt8)
    (hcut : cut = [0xEF] ∨ cut = [0xEF, 0xBF]) : ¬ IsUtf8 (text ++ cut) := fun h => by
  have hrest := congrArg Prod.snd h
  have hsound := PartialChar.Sound.none.decodeFrom text
  simp only [decode] at hrest
  rcases hcut with rfl | rfl
  · rw [decodeFrom_append, decodeFrom_lead hsound] at hrest
    cases hrest
  · rw [show ([0xEF, 0xBF] : List UInt8) = [0xEF] ++ [0xBF] from rfl, ← append_assoc,
      decodeFrom_append, decodeFrom_append _ text, decodeFrom_lead hsound] at hrest
    have hmore : (decodeFrom ⟨[0xEF], [continuation, continuation]⟩ [0xBF]).2.bytes =
        [0xEF, 0xBF] := by decide
    cases hmore.symm.trans hrest

end Retrograd.Logic
