import Mathlib.Data.List.Infix
import Mathlib.Data.List.Flatten

/-!
# Scanning a text from the left

A scan walks over a text once. Where something is **matched** it is passed over as a whole, so
matches do not overlap; every other element is passed over alone. What `str::split` cuts away and
what `str::replace` rewrites are the matches of such a scan.

`Scanned hit text parts` is the scan as a relation, `scan hit text` the parts it finds; the two
agree when a match is never empty.
-/

namespace Retrograd.Logic

open List

variable {α : Type}

/-- The parts of what is left of a text, `skip` elements of which belong to the last match. `hit`
is what is matched at the front of a text. -/
def scanFrom (hit : List α → Option (List α)) : ℕ → List α → List (α ⊕ List α)
  | _, [] => []
  | skip + 1, _ :: rest => scanFrom hit skip rest
  | 0, a :: rest =>
    match hit (a :: rest) with
    | some m => .inr m :: scanFrom hit (m.length - 1) rest
    | none => .inl a :: scanFrom hit 0 rest

/-- The parts of a text: elements that begin no match, and matches. -/
def scan (hit : List α → Option (List α)) (text : List α) : List (α ⊕ List α) :=
  scanFrom hit 0 text

/-- The parts of a text, as a relation. -/
inductive Scanned (hit : List α → Option (List α)) : List α → List (α ⊕ List α) → Prop
  | nil : Scanned hit [] []
  | pass {a : α} {rest : List α} {parts : List (α ⊕ List α)} (none : hit (a :: rest) = none)
      (tail : Scanned hit rest parts) : Scanned hit (a :: rest) (.inl a :: parts)
  | skip {m rest : List α} {parts : List (α ⊕ List α)} (some : hit (m ++ rest) = some m)
      (tail : Scanned hit rest parts) : Scanned hit (m ++ rest) (.inr m :: parts)

/-- What a scan makes of its parts. -/
def rewriteParts (parts : List (α ⊕ List α)) (write : List α → List α) : List α :=
  parts.flatMap (Sum.elim ([·]) write)

/-- The texts between the matches. -/
def splitParts : List (α ⊕ List α) → List (List α)
  | [] => [[]]
  | .inr _ :: parts => [] :: splitParts parts
  | .inl a :: parts =>
    match splitParts parts with
    | [] => [[a]]
    | piece :: pieces => (a :: piece) :: pieces

/-- A match is not empty, and stands at the front of the text. -/
def Matches (hit : List α → Option (List α)) : Prop :=
  ∀ text m, hit text = some m → m ≠ [] ∧ m <+: text

variable {hit : List α → Option (List α)}

theorem scanFrom_append (m rest : List α) :
    scanFrom hit m.length (m ++ rest) = scanFrom hit 0 rest := by
  induction m with
  | nil => rfl
  | cons a m ih => exact ih

variable {text : List α} {parts : List (α ⊕ List α)}

theorem Scanned.scan_eq (hits : Matches hit) (h : Scanned hit text parts) :
    scan hit text = parts := by
  induction h with
  | nil => rfl
  | pass hnone _ ih => rw [scan, scanFrom, hnone, ← ih]; rfl
  | @skip m rest parts hsome _ ih =>
    cases m with
    | nil => exact absurd rfl (hits _ _ hsome).1
    | cons a m =>
      rw [scan, cons_append, scanFrom]
      rw [cons_append] at hsome
      rw [hsome, ← ih]
      exact congrArg _ (scanFrom_append m rest)

theorem scanned_scan (hits : Matches hit) (text : List α) : Scanned hit text (scan hit text) := by
  induction h : text.length using Nat.strong_induction_on generalizing text with
  | _ n ih =>
    subst h
    cases text with
    | nil => exact .nil
    | cons a rest =>
      cases hhit : hit (a :: rest) with
      | none =>
        have htail := ih rest.length (Nat.lt_succ_self _) rest rfl
        rw [scan, scanFrom, hhit]
        exact .pass hhit htail
      | some m =>
        obtain ⟨hne, after, hafter⟩ := hits _ _ hhit
        cases m with
        | nil => exact absurd rfl hne
        | cons b m =>
          rw [cons_append, cons.injEq] at hafter
          obtain ⟨rfl, rfl⟩ := hafter
          have htail := ih after.length
            (by rw [length_cons, length_append]; omega) after rfl
          rw [scan, scanFrom, hhit]
          have hscan : scanFrom hit ((b :: m).length - 1) (m ++ after) = scan hit after :=
            scanFrom_append m after
          dsimp only
          rw [hscan]
          exact Scanned.skip (m := b :: m) hhit htail

/-- Where something is matched, the first part is the match. -/
theorem Scanned.of_some {text m : List α} (h : Scanned hit text parts) (hm : hit text = some m)
    (hne : text ≠ []) : ∃ rest tail, text = m ++ rest ∧
      parts = .inr m :: tail ∧ Scanned hit rest tail := by
  cases h with
  | nil => exact absurd rfl hne
  | pass hnone _ => rw [hnone] at hm; cases hm
  | @skip m' rest tail hsome htail =>
    obtain rfl := Option.some.inj (hsome.symm.trans hm)
    exact ⟨rest, tail, rfl, rfl, htail⟩

/-- Where nothing is matched, the first part is the first element. -/
theorem Scanned.of_none {a : α} {rest : List α} (h : Scanned hit (a :: rest) parts)
    (hnone : hit (a :: rest) = none) : ∃ tail, parts = .inl a :: tail ∧ Scanned hit rest tail := by
  generalize htext : a :: rest = text at h hnone
  cases h with
  | nil => cases htext
  | pass _ htail =>
    obtain ⟨rfl, rfl⟩ := cons.inj htext
    exact ⟨_, rfl, htail⟩
  | skip hsome _ => rw [hsome] at hnone; cases hnone

/-- As far as nothing is matched, the parts are the elements. -/
theorem Scanned.of_passed (h : Scanned hit text parts) {n : ℕ} (hn : n ≤ text.length)
    (hnone : ∀ m < n, hit (text.drop m) = none) :
    ∃ tail, parts = (text.take n).map .inl ++ tail ∧ Scanned hit (text.drop n) tail := by
  induction n generalizing text parts with
  | zero => exact ⟨parts, rfl, h⟩
  | succ n ih =>
    cases text with
    | nil => cases hn
    | cons a rest =>
      obtain ⟨tail, rfl, htail⟩ := h.of_none (hnone 0 n.succ_pos)
      obtain ⟨tail', rfl, hrest⟩ := ih htail (Nat.le_of_succ_le_succ hn)
        fun m hm => hnone (m + 1) (Nat.succ_lt_succ hm)
      exact ⟨tail', rfl, hrest⟩

@[simp] theorem rewriteParts_map_inl (piece : List α) (parts : List (α ⊕ List α))
    (write : List α → List α) :
    rewriteParts (piece.map .inl ++ parts) write = piece ++ rewriteParts parts write := by
  induction piece with
  | nil => rfl
  | cons a piece ih => exact congrArg (a :: ·) ih

/-- A text in which nothing is matched is left as it is. -/
theorem Scanned.rewrite_unmatched (hits : Matches hit) (h : Scanned hit text parts)
    (hnone : ∀ m < text.length, hit (text.drop m) = none) (write : List α → List α) :
    rewriteParts parts write = text := by
  obtain ⟨tail, rfl, htail⟩ := h.of_passed (Nat.le_refl _) hnone
  rw [drop_length] at htail
  rw [rewriteParts_map_inl, take_length, ← htail.scan_eq hits]
  exact append_nil _

theorem Scanned.pass_append {piece rest : List α}
    (h : ∀ suffix, suffix ≠ [] → suffix <:+ piece → hit (suffix ++ rest) = none)
    (tail : Scanned hit rest parts) : Scanned hit (piece ++ rest) (piece.map .inl ++ parts) := by
  induction piece with
  | nil => exact tail
  | cons a piece ih =>
    refine .pass (h (a :: piece) (by simp) (suffix_refl _)) (ih fun suffix hne hsuffix => ?_)
    exact h suffix hne (hsuffix.trans (suffix_cons ..))

@[simp] theorem splitParts_map_inl (piece : List α) :
    splitParts (piece.map (Sum.inl (β := List α))) = [piece] := by
  induction piece with
  | nil => rfl
  | cons a piece ih => rw [map_cons, splitParts, ih]

@[simp] theorem splitParts_append (piece m : List α) (parts : List (α ⊕ List α)) :
    splitParts (piece.map .inl ++ .inr m :: parts) = piece :: splitParts parts := by
  induction piece with
  | nil => rfl
  | cons a piece ih => rw [map_cons, cons_append, splitParts, ih]

/-! ### One pattern -/

variable [DecidableEq α]

/-- The matches of a pattern. -/
def literal (pattern : List α) (text : List α) : Option (List α) :=
  if pattern.isPrefixOf text then some pattern else none

variable {pattern : List α}

theorem matches_literal (h : pattern ≠ []) : Matches (literal pattern) := by
  intro text m hm
  unfold literal at hm
  split_ifs at hm with hfront
  obtain rfl : pattern = m := Option.some.inj hm
  exact ⟨h, isPrefixOf_iff_prefix.mp hfront⟩

theorem literal_eq_none : literal pattern text = none ↔ ¬ pattern <+: text := by
  rw [← isPrefixOf_iff_prefix, literal]
  split_ifs with h <;> simp [h]

/-- Whether a pattern is matched is decided by as many elements as it has. -/
theorem literal_append {text rest : List α} (h : pattern.length ≤ text.length) :
    literal pattern (text ++ rest) = literal pattern text := by
  have hiff : pattern.isPrefixOf (text ++ rest) ↔ pattern.isPrefixOf text := by
    rw [ isPrefixOf_iff_prefix, isPrefixOf_iff_prefix]
    exact ⟨fun hfront => prefix_of_prefix_length_le hfront (prefix_append ..) h,
      fun hfront => hfront.trans (prefix_append ..)⟩
  unfold literal
  simp only [hiff]

/-- A piece in which no match begins, up to the pattern that follows it. -/
theorem scanned_piece {piece rest : List α}
    (h : ∀ suffix ∈ piece.tails, suffix = [] ∨ literal pattern (suffix ++ pattern) = none)
    (tail : Scanned (literal pattern) rest parts) :
    Scanned (literal pattern) (piece ++ (pattern ++ rest))
      (piece.map .inl ++ .inr pattern :: parts) := by
  have hmatch : literal pattern (pattern ++ rest) = some pattern :=
    if_pos ( isPrefixOf_iff_prefix.mpr (prefix_append ..))
  refine .pass_append (fun suffix hne hsuffix => ?_) (.skip hmatch tail)
  rw [← append_assoc, literal_append (by simp)]
  exact (h suffix ((mem_tails _ _).mpr hsuffix)).resolve_left hne

end Retrograd.Logic
