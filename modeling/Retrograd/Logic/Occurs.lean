import Mathlib.Data.List.Infix

/-!
# Where a pattern stands in a text

Occurrences of a pattern by their position. Two patterns are **apart** when no end of the first is
a beginning of the second or begins with it: then an occurrence of the second never begins inside
one of the first.
-/

namespace Retrograd.Logic

open List Option

variable {α : Type} {pattern s s' text : List α} {n p p' : ℕ}

/-- `pattern` stands in `text` at position `n`. -/
def OccursAt (pattern text : List α) (n : ℕ) : Prop := pattern <+: text.drop n

instance [DecidableEq α] (pattern text : List α) (n : ℕ) : Decidable (OccursAt pattern text n) :=
  inferInstanceAs (Decidable (_ <+: _))

/-- `pattern` stands in `text` at position `n` and nowhere else. -/
def OccursOnlyAt (pattern text : List α) (n : ℕ) : Prop := ∀ m, OccursAt pattern text m ↔ m = n

theorem OccursAt.split (h : OccursAt pattern text n) (hne : pattern ≠ []) :
    text = text.take n ++ pattern ++ text.drop (n + pattern.length) ∧
      n + pattern.length ≤ text.length := by
  obtain ⟨after, hafter⟩ := h
  have hlength := congrArg List.length hafter
  rw [length_append, length_drop] at hlength
  have hpos := length_pos_iff.mpr hne
  refine ⟨?_, by omega⟩
  rw [← drop_drop, ← hafter, drop_left, append_assoc, hafter, take_append_drop]

theorem occursAt_append (before after : List α) :
    OccursAt pattern (before ++ pattern ++ after) before.length := by
  rw [OccursAt, append_assoc, drop_left]
  exact prefix_append ..

/-- What stands in two pieces stands in the second or begins in the first. -/
theorem begins_of_infix {l r : List α} (h : s <:+: l ++ r) :
    s <:+: r ∨ ∃ u, u ≠ [] ∧ u <:+ l ∧ s <+: u ++ r := by
  induction l with
  | nil => exact .inl h
  | cons a l ih =>
    rcases infix_cons_iff.mp h with hfront | hinside
    · exact .inr ⟨a :: l, cons_ne_nil a l, suffix_refl _, hfront⟩
    · exact (ih hinside).imp_right fun ⟨u, hne, hu, hfront⟩ =>
        ⟨u, hne, hu.trans (suffix_cons ..), hfront⟩

theorem occursAt_drop {k : ℕ} : OccursAt pattern (text.drop k) n ↔ OccursAt pattern text (k + n) := by
  rw [OccursAt, OccursAt, drop_drop]

/-- Where a pattern first stands in a text. -/
def position [DecidableEq α] (pattern : List α) : List α → Option ℕ
  | [] => if pattern = [] then some 0 else none
  | a :: text =>
    if pattern.isPrefixOf (a :: text) then some 0 else (position pattern text).map (· + 1)

theorem of_position [DecidableEq α] (h : position pattern text = some n) :
    OccursAt pattern text n ∧ ∀ m < n, ¬ OccursAt pattern text m := by
  induction text generalizing n with
  | nil =>
    rw [position] at h
    split_ifs at h with hnil
    obtain rfl := some.inj h
    exact ⟨hnil ▸ prefix_refl _, fun m hm => absurd hm (Nat.not_lt_zero m)⟩
  | cons a text ih =>
    rw [position] at h
    split_ifs at h with hfront
    · obtain rfl := some.inj h
      exact ⟨ isPrefixOf_iff_prefix.mp hfront, fun m hm => absurd hm (Nat.not_lt_zero m)⟩
    · obtain ⟨k, hk, rfl⟩ := map_eq_some_iff.mp h
      obtain ⟨hat, hbefore⟩ := ih hk
      refine ⟨hat, fun m hm => ?_⟩
      cases m with
      | zero => exact fun hzero => hfront ( isPrefixOf_iff_prefix.mpr hzero)
      | succ m => exact hbefore m (Nat.lt_of_succ_lt_succ hm)

theorem position_eq_none [DecidableEq α] (hne : pattern ≠ []) (h : position pattern text = none) :
    ∀ m, ¬ OccursAt pattern text m := by
  induction text with
  | nil => exact fun m hat => hne (prefix_nil.mp (drop_nil (i := m) ▸ hat))
  | cons a text ih =>
    rw [position] at h
    split_ifs at h with hfront
    intro m
    cases m with
    | zero => exact fun hzero => hfront ( isPrefixOf_iff_prefix.mpr hzero)
    | succ m => exact ih (map_eq_none_iff.mp h) m

/-- No end of `s`, but `s` itself, agrees with the beginning of `s'`. -/
def Apart (s s' : List α) : Prop :=
  ∀ u, u ≠ [] → u ≠ s → u <:+ s → ¬ (u <+: s' ∨ s' <+: u)

/-- Occurrences of patterns that are apart do not overlap. -/
theorem Apart.le (hapart : Apart s s') (h : OccursAt s text p) (h' : OccursAt s' text p')
    (hlt : p < p') : p + s.length ≤ p' := by
  by_contra hinside
  obtain ⟨k, rfl⟩ := Nat.exists_eq_add_of_lt hlt
  have hk : k + 1 < s.length := by omega
  obtain ⟨after, hafter⟩ := h
  have hdrop : text.drop (p + k + 1) = s.drop (k + 1) ++ after := by
    rw [Nat.add_assoc, ← drop_drop, ← hafter, drop_append_of_le_length hk.le]
  rw [OccursAt, hdrop] at h'
  refine hapart (s.drop (k + 1)) ?_ ?_ (drop_suffix ..) ?_
  · intro hnil
    rw [drop_eq_nil_iff] at hnil
    omega
  · intro heq
    have hlength := congrArg List.length heq
    rw [length_drop] at hlength
    omega
  · exact prefix_or_prefix_of_prefix (prefix_append ..) h'

/-- What begins with a character that stands nowhere else in `s` is apart from it. -/
theorem apart_of_head {a : α} {rest : List α} (h : a ∉ s.tail) : Apart s (a :: rest) := by
  rintro u hne hother ⟨before, rfl⟩ hmeets
  cases before with
  | nil => exact hother rfl
  | cons b before =>
    refine h (mem_append_right _ ?_)
    rcases hmeets with hfront | hfront
    · cases u with
      | nil => exact absurd rfl hne
      | cons c u => exact (cons_prefix_cons.mp hfront).1 ▸ .head _
    · exact hfront.mem (.head _)

/-- A pattern that stands within a text stands in what continues it. -/
theorem OccursAt.append (h : OccursAt pattern text n) (after : List α) :
    OccursAt pattern (text ++ after) n :=
  h.trans ⟨after.drop (n - text.length), (drop_append ..).symm⟩

/-- A pattern that stands in front of a cut stands in what is cut off. -/
theorem OccursAt.of_append {after : List α} (h : OccursAt pattern (text ++ after) n)
    (hn : n + pattern.length ≤ text.length) : OccursAt pattern text n := by
  rw [OccursAt, drop_append_of_le_length (by omega)] at h
  exact prefix_of_prefix_length_le h (prefix_append ..) (by rw [length_drop]; omega)

end Retrograd.Logic
