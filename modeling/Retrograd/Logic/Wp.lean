import Mathlib.Tactic.Common

/-!
# Weakest preconditions for programs with state and errors

A program is an `EStateM ε σ α`: it runs on a state and ends with a value or with an
error, and **keeps the state it reached in both cases**. `wp m Q E s` says that `m` started
in `s` ends in a state allowed by `Q` when it returns and by `E` when it fails. The rules
below run a program symbolically, one bind at a time; the specification of a called program
is used through `wp_mono`, and a loop over a list through its invariant (`wp_forM`).
-/

namespace Retrograd.Logic

open List

universe u

variable {ε σ α β : Type u}

/-- `m`, started in `s`, ends in `Q` when it returns and in `E` when it fails. -/
def wp (m : EStateM ε σ α) (Q : α → σ → Prop) (E : ε → σ → Prop) (s : σ) : Prop :=
  match m s with
  | .ok a s' => Q a s'
  | .error e s' => E e s'

variable {Q Q' : α → σ → Prop} {E E' : ε → σ → Prop} {s s' : σ} {m : EStateM ε σ α}

theorem wp_of_ok {a : α} (h : wp m Q E s) (hm : m s = .ok a s') : Q a s' := by
  rw [wp, hm] at h
  exact h

theorem wp_of_error {e : ε} (h : wp m Q E s) (hm : m s = .error e s') : E e s' := by
  rw [wp, hm] at h
  exact h

theorem wp_intro (hQ : ∀ a s', m s = .ok a s' → Q a s')
    (hE : ∀ e s', m s = .error e s' → E e s') : wp m Q E s := by
  unfold wp
  split
  · exact hQ _ _ ‹_›
  · exact hE _ _ ‹_›

/-- The rule of consequence: a proved specification serves every weaker one. -/
theorem wp_mono (h : wp m Q E s) (hQ : ∀ a s', Q a s' → Q' a s')
    (hE : ∀ e s', E e s' → E' e s') : wp m Q' E' s :=
  wp_intro (fun a s' hm => hQ a s' (wp_of_ok h hm)) fun e s' hm => hE e s' (wp_of_error h hm)

/-- Two specifications of one run hold together. -/
theorem wp_and (h : wp m Q E s) (h' : wp m Q' E' s) :
    wp m (fun a s' => Q a s' ∧ Q' a s') (fun e s' => E e s' ∧ E' e s') s :=
  wp_intro (fun _ _ hm => ⟨wp_of_ok h hm, wp_of_ok h' hm⟩)
    fun _ _ hm => ⟨wp_of_error h hm, wp_of_error h' hm⟩

@[simp] theorem wp_pure (a : α) : wp (pure a : EStateM ε σ α) Q E s ↔ Q a s := Iff.rfl

@[simp] theorem wp_throw (e : ε) : wp (throw e : EStateM ε σ α) Q E s ↔ E e s := Iff.rfl

@[simp] theorem wp_get {Q : σ → σ → Prop} : wp (get : EStateM ε σ σ) Q E s ↔ Q s s := Iff.rfl

@[simp] theorem wp_set {Q : PUnit → σ → Prop} (t : σ) :
    wp (set t : EStateM ε σ PUnit) Q E s ↔ Q ⟨⟩ t := Iff.rfl

@[simp] theorem wp_modify {Q : PUnit → σ → Prop} (f : σ → σ) :
    wp (modify f : EStateM ε σ PUnit) Q E s ↔ Q ⟨⟩ (f s) := Iff.rfl

@[simp] theorem wp_modifyGet (f : σ → α × σ) :
    wp (modifyGet f : EStateM ε σ α) Q E s ↔ Q (f s).1 (f s).2 := Iff.rfl

/-- A sequence runs its second half from whatever the first half reached. -/
@[simp] theorem wp_bind {Q : β → σ → Prop} (f : α → EStateM ε σ β) :
    wp (m >>= f) Q E s ↔ wp m (fun a s' => wp (f a) Q E s') E s := by
  have hrun : (m >>= f) s = match m s with
      | .ok a s' => f a s'
      | .error e s' => .error e s' := rfl
  unfold wp
  rw [hrun]
  cases m s <;> rfl

@[simp] theorem wp_map {Q : β → σ → Prop} (f : α → β) :
    wp (f <$> m) Q E s ↔ wp m (fun a s' => Q (f a) s') E s := by
  have hrun : (f <$> m) s = match m s with
      | .ok a s' => .ok (f a) s'
      | .error e s' => .error e s' := rfl
  unfold wp
  rw [hrun]
  cases m s <;> rfl

@[simp] theorem wp_ite {c : Prop} [Decidable c] (m m' : EStateM ε σ α) :
    wp (if c then m else m') Q E s ↔ (c → wp m Q E s) ∧ (¬c → wp m' Q E s) := by
  split <;> simp_all

/-- Runs `m` and returns its error as a value, keeping the state the failure reached: the
caller decides whether the error matters. -/
def settle (m : EStateM ε σ α) : EStateM ε σ (Except ε α) := fun s =>
  match m s with
  | .ok a s' => .ok (.ok a) s'
  | .error e s' => .ok (.error e) s'

@[simp] theorem wp_settle {Q : Except ε α → σ → Prop} :
    wp (settle m) Q E s ↔ wp m (fun a s' => Q (.ok a) s') (fun e s' => Q (.error e) s') s := by
  unfold wp settle
  cases m s <;> rfl

variable {l : List α} {f : α → EStateM ε σ PUnit}

/-- A loop over a list: an invariant of what is still to be done is kept by every round. -/
theorem wp_forM_list (I : List α → σ → Prop)
    (hstep : ∀ a rest s, I (a :: rest) s → wp (f a) (fun _ s' => I rest s') E s) (h : I l s) :
    wp (l.forM f) (fun _ s' => I [] s') E s := by
  induction l generalizing s with
  | nil => simpa [List.forM] using h
  | cons a rest ih =>
    show wp (f a >>= fun _ => rest.forM f) _ E s
    rw [wp_bind]
    exact wp_mono (hstep a rest s h) (fun _ _ h' => ih h') fun _ _ h' => h'

/-- A loop over a list whose rounds keep one property of the state. -/
theorem wp_forM {I : σ → Prop} (hstep : ∀ a ∈ l, ∀ s, I s → wp (f a) (fun _ s' => I s') E s)
    (h : I s) : wp (l.forM f) (fun _ s' => I s') E s := by
  refine wp_forM_list (fun rest s => (∀ a ∈ rest, a ∈ l) ∧ I s) ?_ ⟨fun _ => id, h⟩ |> fun h =>
    wp_mono h (fun _ _ h' => h'.2) fun _ _ h' => h'
  rintro a rest s ⟨hsub, hI⟩
  exact wp_mono (hstep a (hsub a mem_cons_self) s hI)
    (fun _ _ h' => ⟨fun b hb => hsub b (mem_cons_of_mem a hb), h'⟩) fun _ _ h' => h'

/-- A list of results: each one stands in the relation its own computation establishes to the
element it was computed from. -/
theorem wp_mapM {f : α → EStateM ε σ β} {R : α → β → Prop} {I : σ → Prop}
    (hstep : ∀ a ∈ l, ∀ s, I s → wp (f a) (fun b s' => R a b ∧ I s') E s) (h : I s) :
    wp (l.mapM f) (fun bs s' => Forall₂ R l bs ∧ I s') E s := by
  induction l generalizing s with
  | nil => simpa using h
  | cons a rest ih =>
    rw [mapM_cons, wp_bind]
    refine wp_mono (hstep a mem_cons_self s h) (fun b s' hb => ?_) fun _ _ h' => h'
    rw [wp_bind]
    refine wp_mono (ih (fun c hc => hstep c (mem_cons_of_mem a hc)) hb.2)
      (fun bs t hbs => ?_) fun _ _ h' => h'
    exact ⟨.cons hb.1 hbs.1, hbs.2⟩

/-! ### Results that do not depend on the state -/

/-- Every value `m` returns, from whatever state, satisfies `P`. -/
def Returns (m : EStateM ε σ α) (P : α → Prop) : Prop :=
  ∀ s, wp m (fun a _ => P a) (fun _ _ => True) s

namespace Returns

variable {P P' : α → Prop} {P₂ : β → Prop}

theorem of_ok (h : Returns m P) {a : α} (hm : m s = .ok a s') : P a := wp_of_ok (h s) hm

theorem mono (h : Returns m P) (hP : ∀ a, P a → P' a) : Returns m P' :=
  fun s => wp_mono (h s) (fun a _ => hP a) fun _ _ h' => h'

theorem any : Returns m fun _ => True := fun _ => wp_intro (fun _ _ _ => trivial) fun _ _ _ => trivial

theorem pure {a : α} (h : P a) : Returns (Pure.pure a : EStateM ε σ α) P := fun _ => h

theorem throw {e : ε} : Returns (MonadExcept.throw e : EStateM ε σ α) P := fun _ => trivial

variable {f : α → EStateM ε σ β}

theorem bind (h : Returns m P) (hf : ∀ a, P a → Returns (f a) P₂) : Returns (m >>= f) P₂ := fun s =>
  wp_bind f |>.mpr (wp_mono (h s) (fun a s' ha => hf a ha s') fun _ _ h' => h')

theorem ite {c : Prop} [Decidable c] {m' : EStateM ε σ α} (h : c → Returns m P)
    (h' : ¬c → Returns m' P) : Returns (if c then m else m') P := by
  split
  · exact h ‹_›
  · exact h' ‹_›

theorem foldlM {l : List α} {f : β → α → EStateM ε σ β} {b : β} (h : P₂ b)
    (hstep : ∀ b a, a ∈ l → P₂ b → Returns (f b a) P₂) : Returns (l.foldlM f b) P₂ := by
  induction l generalizing b with
  | nil => exact pure h
  | cons a rest ih =>
    rw [foldlM_cons]
    exact bind (hstep b a mem_cons_self h) fun b' hb' =>
      ih hb' fun c a ha => hstep c a (mem_cons_of_mem _ ha)

theorem mapM {l : List α} {R : α → β → Prop} (hstep : ∀ a ∈ l, Returns (f a) (R a)) :
    Returns (l.mapM f) (Forall₂ R l) := by
  intro s
  have h := wp_mapM (I := fun _ => True) (s := s) (E := fun _ _ => True)
    (fun a ha s _ => wp_mono (hstep a ha s) (fun b _ hb => ⟨hb, trivial⟩) fun _ _ h => h) trivial
  exact wp_mono h (fun bs _ hbs => hbs.1) fun _ _ h => h

end Returns

end Retrograd.Logic
