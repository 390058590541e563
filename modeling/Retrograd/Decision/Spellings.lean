import Retrograd.Logic.Scan

/-!
# The spellings of special tokens

Text that spells a special token of the vocabulary would be read as that token. The rewritings
that keep it text scan for the spellings, the longest first. Texts are lists of characters: the
code walks over their UTF-8 bytes, where one text stands inside another at character boundaries
only.
-/

namespace Retrograd.Decision

open Logic List

/-- A special token of a vocabulary. -/
structure SpecialToken where
  text : String
  control : Bool
  userDefined : Bool

/-- The texts of the special tokens that are at least `minLen` bytes long, the longest first. -/
def quotedSpellings (tokens : List SpecialToken) (userDefined : Bool) (minLen : ℕ) : List String :=
  let spellings := ((tokens.filter fun token =>
    token.control || (userDefined && token.userDefined)).map SpecialToken.text).filter
      fun text => minLen ≤ text.utf8ByteSize
  -- stable: equal lengths keep the order of their ids
  spellings.mergeSort fun text text' => text'.utf8ByteSize ≤ text.utf8ByteSize

/-- The first characters of `spellings`, each once. -/
def firstChars (spellings : List (List Char)) : List Char :=
  spellings.foldl (fun first spelling =>
    match spelling.head? with
    | some c => if first.contains c then first else first ++ [c]
    | none => first) []

/-- The spelling of `spellings` (longest first) that `text` starts with. -/
def spellingAt (text : List Char) (spellings : List (List Char)) : Option (List Char) :=
  spellings.find? fun spelling => spelling.isPrefixOf text

/-- The spelling at the front of `text`, looked for where one can begin. -/
def hitAt (spellings : List (List Char)) : List Char → Option (List Char)
  | [] => none
  | c :: rest =>
    if (firstChars spellings).contains c then spellingAt (c :: rest) spellings else none

variable {spellings : List (List Char)} {text s : List Char}

theorem mem_quotedSpellings {tokens : List SpecialToken} {userDefined : Bool} {minLen : ℕ}
    {spelling : String} (h : spelling ∈ quotedSpellings tokens userDefined minLen) :
    minLen ≤ spelling.utf8ByteSize := by
  rw [quotedSpellings, mem_mergeSort, mem_filter] at h
  exact of_decide_eq_true h.2

theorem mem_firstChars {c : Char} : c ∈ firstChars spellings ↔ ∃ s ∈ spellings, s.head? = some c := by
  suffices hfold : ∀ first : List Char, c ∈ spellings.foldl (fun first spelling =>
      match spelling.head? with
      | some c => if first.contains c then first else first ++ [c]
      | none => first) first ↔ c ∈ first ∨ ∃ s ∈ spellings, s.head? = some c by
    exact (hfold []).trans (by simp)
  induction spellings with
  | nil => simp
  | cons s spellings ih =>
    intro first
    rw [foldl_cons, ih]
    simp only [mem_cons, exists_eq_or_imp]
    cases hhead : s.head? with
    | none => simp
    | some d =>
      dsimp only
      split_ifs with hmem
      · rw [contains_iff_mem] at hmem
        constructor
        · exact fun h => h.imp_right .inr
        · rintro (h | h | h)
          · exact .inl h
          · exact .inl (Option.some.inj h ▸ hmem)
          · exact .inr h
      · simp [or_assoc, eq_comm]

/-- Looking only where a spelling can begin misses none. -/
theorem hitAt_eq (hne : ∀ s ∈ spellings, s ≠ []) : hitAt spellings text = spellingAt text spellings := by
  cases text with
  | nil =>
    refine (find?_eq_none.mpr fun s hs => ?_).symm
    rw [ isPrefixOf_iff_prefix, prefix_nil]
    exact hne s hs
  | cons c rest =>
    rw [hitAt]
    split_ifs with hfirst
    · rfl
    · refine (find?_eq_none.mpr fun s hs hfront => hfirst ?_).symm
      rw [contains_iff_mem, mem_firstChars]
      cases s with
      | nil => exact absurd rfl (hne _ hs)
      | cons d s =>
        rw [ isPrefixOf_iff_prefix, cons_prefix_cons] at hfront
        exact ⟨_, hs, hfront.1 ▸ rfl⟩

theorem of_hitAt (hne : ∀ s ∈ spellings, s ≠ []) (h : hitAt spellings text = some s) :
    s ∈ spellings ∧ s <+: text := by
  rw [hitAt_eq hne, spellingAt] at h
  have hfront := find?_some h
  exact ⟨mem_of_find?_eq_some h, isPrefixOf_iff_prefix.mp hfront⟩

/-- There is a hit exactly where some spelling stands. -/
theorem hitAt_eq_none (hne : ∀ s ∈ spellings, s ≠ []) :
    hitAt spellings text = none ↔ ∀ s ∈ spellings, ¬ s <+: text := by
  rw [hitAt_eq hne, spellingAt, find?_eq_none]
  simp only [ isPrefixOf_iff_prefix]

theorem matches_hitAt (hne : ∀ s ∈ spellings, s ≠ []) : Matches (hitAt spellings) := by
  intro text s h
  obtain ⟨hmem, hfront⟩ := of_hitAt hne h
  exact ⟨hne s hmem, hfront⟩

end Retrograd.Decision
