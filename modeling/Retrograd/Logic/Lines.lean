import Mathlib.Data.List.Basic

/-!
# The lines of a growing file

A file that is appended to is read as the **lines that are whole**: those whose end is there.
What comes after the last end is left for later. Appending only ever adds lines
(`lines_append`), and reading on from the end of a line gives the lines after it
(`lines_drop_joined`), so a reader may keep an offset instead of the text.
-/

namespace Retrograd.Logic

open List

variable {α : Type*} [DecidableEq α] (sep : α)

/-- The lines ended within some text, the first of them begun with `line` (newest first). -/
def linesFrom (line : List α) : List α → List (List α)
  | [] => []
  | b :: rest =>
    if b = sep then line.reverse :: linesFrom [] rest else linesFrom (b :: line) rest

/-- The lines of a text that are whole, without what ends them. -/
def lines (text : List α) : List (List α) :=
  linesFrom sep [] text

/-- Lines written out. -/
def joined (parts : List (List α)) : List α :=
  parts.flatMap fun line => line ++ [sep]

omit [DecidableEq α] in
@[simp] theorem joined_nil : joined sep [] = [] := rfl

omit [DecidableEq α] in
theorem joined_cons (line : List α) (rest : List (List α)) :
    joined sep (line :: rest) = line ++ sep :: joined sep rest := by
  simp [joined]

omit [DecidableEq α] in
theorem joined_append (first second : List (List α)) :
    joined sep (first ++ second) = joined sep first ++ joined sep second := by
  simp [joined]

private theorem linesFrom_line (line text rest : List α) (h : sep ∉ text) :
    linesFrom sep line (text ++ sep :: rest) = (line.reverse ++ text) :: lines sep rest := by
  induction text generalizing line with
  | nil => simp [linesFrom, lines]
  | cons b text ih =>
    rw [mem_cons, not_or] at h
    rw [cons_append, linesFrom, if_neg (Ne.symm h.1), ih _ h.2]
    simp

private theorem linesFrom_unended (line text : List α) (h : sep ∉ text) :
    linesFrom sep line text = [] := by
  induction text generalizing line with
  | nil => rfl
  | cons b text ih =>
    rw [mem_cons, not_or] at h
    rw [linesFrom, if_neg (Ne.symm h.1), ih _ h.2]

variable {sep}

/-- Lines written out, and what follows them. -/
theorem lines_joined_append {parts : List (List α)} (h : ∀ line ∈ parts, sep ∉ line)
    (rest : List α) : lines sep (joined sep parts ++ rest) = parts ++ lines sep rest := by
  induction parts with
  | nil => rfl
  | cons line parts ih =>
    rw [forall_mem_cons] at h
    rw [joined_cons, append_assoc, cons_append, lines, linesFrom_line sep _ _ _ h.1,
      ih h.2, reverse_nil, nil_append, cons_append]

variable (sep)

/-- Every text is its whole lines, and something that holds no end of a line. -/
theorem exists_joined (text : List α) : ∃ parts rest, text = joined sep parts ++ rest ∧
    (∀ line ∈ parts, sep ∉ line) ∧ sep ∉ rest ∧ lines sep text = parts := by
  have hsplit : ∃ parts rest, text = joined sep parts ++ rest ∧
      (∀ line ∈ parts, sep ∉ line) ∧ sep ∉ rest := by
    induction text with
    | nil => exact ⟨[], [], rfl, by simp, by simp⟩
    | cons b text ih =>
      obtain ⟨parts, rest, rfl, hparts, hrest⟩ := ih
      by_cases hb : b = sep
      · subst hb
        exact ⟨[] :: parts, rest, by simp [joined_cons],
          forall_mem_cons.mpr ⟨not_mem_nil, hparts⟩, hrest⟩
      · cases parts with
        | nil => exact ⟨[], b :: rest, rfl, by simp, by simp [Ne.symm hb, hrest]⟩
        | cons line parts =>
          rw [forall_mem_cons] at hparts
          exact ⟨(b :: line) :: parts, rest, by simp [joined_cons],
            forall_mem_cons.mpr ⟨by simp [Ne.symm hb, hparts.1], hparts.2⟩, hrest⟩
  obtain ⟨parts, rest, htext, hparts, hrest⟩ := hsplit
  refine ⟨parts, rest, htext, hparts, hrest, ?_⟩
  rw [htext, lines_joined_append hparts, lines, linesFrom_unended sep [] rest hrest,
    append_nil]

/-- Appending adds lines. -/
theorem lines_append (text more : List α) :
    ∃ added, lines sep (text ++ more) = lines sep text ++ added := by
  obtain ⟨parts, rest, htext, hparts, -, hlines⟩ := exists_joined sep text
  refine ⟨lines sep (rest ++ more), ?_⟩
  rw [hlines, htext, append_assoc, lines_joined_append hparts]

/-- Reading on from the end of a line gives the lines after it. -/
theorem lines_drop_joined {text : List α} {first second : List (List α)}
    (h : lines sep text = first ++ second) :
    (joined sep first).length ≤ text.length ∧
      lines sep (text.drop (joined sep first).length) = second := by
  obtain ⟨parts, rest, htext, hparts, hrest, hlines⟩ := exists_joined sep text
  rw [hlines] at h
  subst h
  rw [htext, joined_append, append_assoc, drop_left, length_append]
  refine ⟨Nat.le_add_right _ _, ?_⟩
  rw [lines_joined_append fun line hline => hparts line (mem_append_right _ hline), lines,
    linesFrom_unended sep [] rest hrest, append_nil]

end Retrograd.Logic
