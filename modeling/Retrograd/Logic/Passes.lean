import Mathlib.Tactic.Common

/-!
# Passes that repeat until nothing changes

A pass gives back what it made of its input and whether it changed anything. Repeating it ends
when a measure falls at every change, and **never ends** on an invariant under which every pass
changes something.
-/

namespace Retrograd.Logic

variable {α : Type} {pass : α → α × Bool}

/-- The result of repeating a pass until nothing changes, within `fuel` passes. -/
def passes (pass : α → α × Bool) : ℕ → α → Option α
  | 0, _ => none
  | fuel + 1, a =>
    let (a, changed) := pass a
    if changed then passes pass fuel a else some a

/-- Passes whose changes lower a measure end, in something the last pass left alone that is
related to the input as every pass is. -/
theorem passes_some (μ : α → ℕ) {R : α → α → Prop}
    (htrans : ∀ a b c, R a b → R b c → R a c) (hpass : ∀ a, R a (pass a).1)
    (hless : ∀ a, (pass a).2 → μ (pass a).1 < μ a) (a : α) :
    ∃ b, passes pass (μ a + 1) a = some (pass b).1 ∧ (pass b).2 = false ∧ R a (pass b).1 := by
  suffices hfuel : ∀ fuel a, μ a < fuel →
      ∃ b, passes pass fuel a = some (pass b).1 ∧ (pass b).2 = false ∧ R a (pass b).1 from
    hfuel _ a (Nat.lt_succ_self _)
  intro fuel
  induction fuel with
  | zero => exact fun a h => absurd h (Nat.not_lt_zero _)
  | succ fuel ih =>
    intro a h
    rw [passes]
    cases hchanged : (pass a).2 with
    | false => exact ⟨a, if_neg (by simp [hchanged]), hchanged, hpass a⟩
    | true =>
      have hnext := hless a hchanged
      obtain ⟨b, hresult, hlast, hrel⟩ := ih (pass a).1 (by omega)
      exact ⟨b, (if_pos hchanged).trans hresult, hlast, htrans _ _ _ (hpass a) hrel⟩

/-- Passes that always change something never end. -/
theorem passes_none {P : α → Prop} (hstep : ∀ a, P a → (pass a).2 ∧ P (pass a).1) {a : α} (h : P a)
    (fuel : ℕ) : passes pass fuel a = none := by
  induction fuel generalizing a with
  | zero => rfl
  | succ fuel ih =>
    obtain ⟨hchanged, hnext⟩ := hstep a h
    rw [passes]
    exact (if_pos hchanged).trans (ih hnext)

end Retrograd.Logic
