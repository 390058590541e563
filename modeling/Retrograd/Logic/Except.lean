import Mathlib.Data.List.Forall2

/-!
# Computations that may fail

Inversion rules for `Except`: what a successful sequence, list of results or fold says about
its parts. Each is the one place where the monad is unfolded; a proof about a program cites the
rule and never the definition.
-/

namespace Retrograd.Logic

open List

universe u v

variable {ε : Type u} {α β : Type v}

variable {f : α → Except ε β}

/-- A successful sequence ran both of its halves. -/
theorem ok_of_bind {x : Except ε α} {b : β} (h : (x >>= f) = .ok b) :
    ∃ a, x = .ok a ∧ f a = .ok b := by
  cases x with
  | error e => cases h
  | ok a => exact ⟨a, rfl, h⟩

/-- A success keeps its value when the failures are renamed. -/
theorem ok_of_mapError {ε' : Type u} {f : ε → ε'} {x : Except ε α} {a : α}
    (h : x.mapError f = .ok a) : x = .ok a := by
  cases x with
  | error e => cases h
  | ok a' => exact congrArg Except.ok (Except.ok.inj h)

variable {l : List α}

/-- A successful list of results has one for every element. -/
theorem forall₂_of_mapM {bs : List β} (h : l.mapM f = .ok bs) :
    Forall₂ (fun a b => f a = .ok b) l bs := by
  induction l generalizing bs with
  | nil => cases h; exact .nil
  | cons a l ih =>
    rw [mapM_cons] at h
    obtain ⟨b, hb, h⟩ := ok_of_bind h
    obtain ⟨rest, hrest, h⟩ := ok_of_bind h
    cases h
    exact .cons hb (ih hrest)

/-- A successful list of results succeeded at every element. -/
theorem ok_of_mem_mapM {bs : List β} (h : l.mapM f = .ok bs) {a : α} (ha : a ∈ l) :
    ∃ b, f a = .ok b := by
  have hall := forall₂_of_mapM h
  clear h
  induction hall with
  | nil => cases ha
  | cons hab _ ih =>
    cases ha with
    | head => exact ⟨_, hab⟩
    | tail _ ha => exact ih ha

/-- A list of results that are all there is a result, entry by entry. -/
theorem mapM_ok {R : α → β → Prop} (h : ∀ a ∈ l, ∃ b, f a = .ok b ∧ R a b) :
    ∃ bs, l.mapM f = .ok bs ∧ Forall₂ R l bs := by
  induction l with
  | nil => exact ⟨[], rfl, .nil⟩
  | cons a l ih =>
    obtain ⟨b, hb, hab⟩ := h a (.head _)
    obtain ⟨bs, hbs, hall⟩ := ih fun a ha => h a (.tail _ ha)
    refine ⟨b :: bs, ?_, .cons hab hall⟩
    rw [mapM_cons, hb, hbs]
    rfl

/-- A list of results fails as one of its entries does. -/
theorem error_of_mapM {e : ε} (h : l.mapM f = .error e) : ∃ a ∈ l, f a = .error e := by
  induction l with
  | nil => cases h
  | cons a l ih =>
    rw [mapM_cons] at h
    cases ha : f a with
    | error e' =>
      rw [ha] at h
      have heq : e' = e := Except.error.inj h
      exact ⟨a, .head _, heq ▸ ha⟩
    | ok b =>
      rw [ha] at h
      cases hl : l.mapM f with
      | error e' =>
        have heq : e' = e := by
          change (l.mapM f >>= fun bs => pure (b :: bs)) = .error e at h
          rw [hl] at h
          exact Except.error.inj h
        obtain ⟨a', hmem, ha'⟩ := ih (heq ▸ hl)
        exact ⟨a', .tail _ hmem, ha'⟩
      | ok bs =>
        change (l.mapM f >>= fun bs => pure (b :: bs)) = .error e at h
        rw [hl] at h
        cases h

/-- A check of every element succeeds when each of them passes. -/
theorem forM_ok_iff {f : α → Except ε PUnit} : l.forM f = .ok ⟨⟩ ↔ ∀ a ∈ l, f a = .ok ⟨⟩ := by
  induction l with
  | nil => exact ⟨fun _ _ h => absurd h not_mem_nil, fun _ => rfl⟩
  | cons a l ih =>
    change (f a >>= fun _ => l.forM f) = _ ↔ _
    rw [forall_mem_cons, ← ih]
    constructor
    · intro h
      obtain ⟨_, hfirst, hrest⟩ := ok_of_bind h
      exact ⟨hfirst, hrest⟩
    · rintro ⟨hfirst, hrest⟩
      rw [hfirst]
      exact hrest

/-! ### Two computations side by side -/

/-- Two computations fail alike, or succeed with related results. -/
inductive Agree {ε : Type u} {α α' : Type v} (R : α → α' → Prop) :
    Except ε α → Except ε α' → Prop
  | error (e : ε) : Agree R (.error e) (.error e)
  | ok {a : α} {a' : α'} (h : R a a') : Agree R (.ok a) (.ok a')

namespace Agree

variable {α' β' : Type v} {R : α → α' → Prop} {Q : β → β' → Prop}

theorem bind {x : Except ε α} {x' : Except ε α'} {f : α → Except ε β} {f' : α' → Except ε β'}
    (h : Agree R x x') (hf : ∀ a a', R a a' → Agree Q (f a) (f' a')) :
    Agree Q (x >>= f) (x' >>= f') := by
  cases h with
  | error e => exact .error e
  | ok h => exact hf _ _ h

theorem refl (x : Except ε α) : Agree Eq x x := by
  cases x with
  | error e => exact .error e
  | ok a => exact .ok rfl

theorem of_ok {a : α} {x' : Except ε α'} (h : Agree R (.ok a) x') : ∃ a', x' = .ok a' ∧ R a a' := by
  cases h with
  | ok h => exact ⟨_, rfl, h⟩

end Agree

/-! ### Lists related entry by entry -/

/-- The entries at one position are related. -/
theorem forall₂_getElem? {R : α → β → Prop} {l' : List β} (h : Forall₂ R l l') {i : ℕ}
    {b : β} (hb : l'[i]? = some b) : ∃ a, l[i]? = some a ∧ R a b := by
  induction h generalizing i with
  | nil => simp at hb
  | cons hab _ ih =>
    cases i with
    | zero => simp only [getElem?_cons_zero, Option.some.injEq] at hb; exact ⟨_, rfl, hb ▸ hab⟩
    | succ i => simpa using ih (by simpa using hb)

end Retrograd.Logic
