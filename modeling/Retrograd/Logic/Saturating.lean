import Mathlib.Algebra.Order.Group.Nat
import Mathlib.Algebra.BigOperators.Group.List.Basic
import Mathlib.Algebra.Ring.Nat

/-!
# Saturating sums

Sums and products that stay at a **cap** once they reach it. A saturating sum is the plain sum cut
at the cap, so the order of its terms and the cuts made on the way do not show.
-/

namespace Retrograd.Logic

open List

variable {cap : ℕ}

/-- Addition that saturates at `cap`. -/
def satAdd (cap a b : ℕ) : ℕ := min (a + b) cap

/-- Multiplication that saturates at `cap`. -/
def satMul (cap a b : ℕ) : ℕ := min (a * b) cap

/-- The fold of saturating additions. -/
def satSum (cap : ℕ) (terms : List ℕ) : ℕ := terms.foldl (satAdd cap) 0

theorem satAdd_min_left (a b : ℕ) : satAdd cap (min a cap) b = satAdd cap a b := by
  rw [satAdd, satAdd]
  omega

theorem satAdd_min_right (a b : ℕ) : satAdd cap a (min b cap) = satAdd cap a b := by
  rw [satAdd, satAdd]
  omega

private theorem foldl_satAdd (terms : List ℕ) (start : ℕ) (h : start ≤ cap) :
    terms.foldl (satAdd cap) start = min (start + terms.sum) cap := by
  induction terms generalizing start with
  | nil => exact (Nat.min_eq_left h).symm
  | cons term terms ih =>
    rw [foldl_cons, satAdd, ih _ (Nat.min_le_right _ _), sum_cons]
    omega

theorem satSum_eq (terms : List ℕ) : satSum cap terms = min terms.sum cap := by
  rw [satSum, foldl_satAdd terms 0 (Nat.zero_le cap), Nat.zero_add]

theorem satSum_append (terms terms' : List ℕ) :
    satSum cap (terms ++ terms') = satAdd cap (satSum cap terms) (satSum cap terms') := by
  rw [satSum_eq, satSum_eq, satSum_eq, satAdd_min_left, satAdd_min_right, sum_append, satAdd]

/-- Groups of terms may be summed first. -/
theorem satSum_flatMap {α : Type} (group : α → List ℕ) (xs : List α) :
    satSum cap (xs.flatMap group) = satSum cap (xs.map fun x => satSum cap (group x)) := by
  induction xs with
  | nil => rfl
  | cons x xs ih =>
    rw [flatMap_cons, satSum_append, ih, map_cons, ← singleton_append,
      satSum_append, satSum_eq [_], sum_singleton, satAdd_min_left]

end Retrograd.Logic
