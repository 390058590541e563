import Mathlib.Data.List.Range

/-!
# Consecutive ranges

`Tiles start stop ranges` says that the half-open ranges **cover** the positions from `start` to
`stop`, each starting where the one before it ends and none of them empty. What a list holds at the
positions of such ranges is the list itself, cut.
-/

namespace Retrograd.Logic

open List

variable {α : Type*} {start mid stop : ℕ} {ranges ranges' : List (ℕ × ℕ)}

/-- The ranges follow one another from `start` to `stop`. -/
inductive Tiles : ℕ → ℕ → List (ℕ × ℕ) → Prop
  | nil (stop : ℕ) : Tiles stop stop []
  | cons {start mid stop : ℕ} {ranges : List (ℕ × ℕ)} (lt : start < mid)
      (rest : Tiles mid stop ranges) : Tiles start stop ((start, mid) :: ranges)

namespace Tiles

theorem le (h : Tiles start stop ranges) : start ≤ stop := by
  induction h with
  | nil => exact Nat.le_refl _
  | cons hlt _ ih => omega

theorem append (h : Tiles start mid ranges) (h' : Tiles mid stop ranges') :
    Tiles start stop (ranges ++ ranges') := by
  induction h with
  | nil => exact h'
  | cons hlt _ ih => exact .cons hlt (ih h')

/-- One more range at the end. -/
theorem snoc (h : Tiles start mid ranges) (hlt : mid < stop) :
    Tiles start stop (ranges ++ [(mid, stop)]) :=
  h.append (.cons hlt (.nil stop))

/-- No range is empty. -/
theorem lt_of_mem (h : Tiles start stop ranges) {range : ℕ × ℕ} (hrange : range ∈ ranges) :
    range.1 < range.2 := by
  induction h with
  | nil => cases hrange
  | cons hlt _ ih =>
    rcases mem_cons.mp hrange with rfl | hrange
    · exact hlt
    · exact ih hrange

theorem le_of_mem (h : Tiles start stop ranges) {range : ℕ × ℕ} (hrange : range ∈ ranges) :
    range.2 ≤ stop := by
  induction h with
  | nil => cases hrange
  | cons _ hrest ih =>
    rcases mem_cons.mp hrange with rfl | hrange
    · exact hrest.le
    · exact ih hrange

theorem ge_of_mem (h : Tiles start stop ranges) {range : ℕ × ℕ} (hrange : range ∈ ranges) :
    start ≤ range.1 := by
  induction h with
  | nil => cases hrange
  | cons hlt _ ih =>
    rcases mem_cons.mp hrange with rfl | hrange
    · exact Nat.le_refl _
    · exact hlt.le.trans (ih hrange)

/-- Only ranges that end where they start need no first range. -/
theorem head? (h : Tiles start stop ranges) (hlt : start < stop) :
    ranges.head?.map Prod.fst = some start := by
  cases h with
  | nil => exact absurd hlt (Nat.lt_irrefl _)
  | cons _ _ => rfl

theorem getLast? (h : Tiles start stop ranges) (hlt : start < stop) :
    ranges.getLast?.map Prod.snd = some stop := by
  induction h with
  | nil => exact absurd hlt (Nat.lt_irrefl _)
  | @cons start mid stop ranges _ hrest ih =>
    cases hrest with
    | nil => rfl
    | cons hmid hrest =>
      rw [getLast?_cons_cons]
      exact ih (hmid.trans_le hrest.le)

/-- Each range starts where the one before it ends. -/
theorem start_succ (h : Tiles start stop ranges) {i : ℕ} {range next : ℕ × ℕ}
    (hrange : ranges[i]? = some range) (hnext : ranges[i + 1]? = some next) : next.1 = range.2 := by
  induction h generalizing i with
  | nil => cases hrange
  | cons hlt hrest ih =>
    cases i with
    | zero =>
      cases Option.some.inj hrange
      cases hrest with
      | nil => cases hnext
      | cons _ _ =>
        cases Option.some.inj hnext
        rfl
    | succ i => exact ih hrange hnext

/-- The ranges start one after another. -/
theorem starts_lt (h : Tiles start stop ranges) {i j : ℕ} {range later : ℕ × ℕ}
    (hrange : ranges[i]? = some range) (hlater : ranges[j]? = some later) (hij : i < j) :
    range.1 < later.1 := by
  induction h generalizing i j with
  | nil => cases hrange
  | cons hlt hrest ih =>
    obtain ⟨j, rfl⟩ := Nat.exists_eq_succ_of_ne_zero (Nat.ne_of_gt (Nat.zero_lt_of_lt hij))
    have hmem := mem_of_getElem? (getElem?_cons_succ ▸ hlater)
    cases i with
    | zero =>
      cases Option.some.inj hrange
      exact hlt.trans_le (hrest.ge_of_mem hmem)
    | succ i =>
      exact ih hrange (getElem?_cons_succ ▸ hlater) (Nat.lt_of_succ_lt_succ hij)

/-- **Every position is covered once**, in order. -/
theorem flatMap_range' (h : Tiles start stop ranges) :
    (ranges.flatMap fun range => List.range' range.1 (range.2 - range.1)) =
      List.range' start (stop - start) := by
  induction h with
  | nil => simp
  | @cons start mid stop ranges hlt hrest ih =>
    have hle := hrest.le
    rw [flatMap_cons, ih, show mid = start + (mid - start) by omega,
      Nat.add_sub_cancel_left, range'_append_1]
    congr 1
    omega

/-- What a list holds in the ranges is what it holds from `start` to `stop`. -/
theorem flatMap_slices (h : Tiles start stop ranges) (l : List α) :
    (ranges.flatMap fun range => (l.drop range.1).take (range.2 - range.1)) =
      (l.drop start).take (stop - start) := by
  induction h with
  | nil => simp
  | @cons start mid stop ranges hlt hrest ih =>
    have hle := hrest.le
    have hlength : stop - start = (mid - start) + (stop - mid) := by omega
    have hmid : l.drop mid = (l.drop start).drop (mid - start) := by
      rw [drop_drop, Nat.add_sub_cancel' hlt.le]
    rw [flatMap_cons, ih, hlength, take_add, hmid]

end Tiles

end Retrograd.Logic
