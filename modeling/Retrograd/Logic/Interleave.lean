import Mathlib.Algebra.BigOperators.Group.List.Basic
import Mathlib.Algebra.Group.Hom.Basic

/-!
# Interleaved threads

Any number of threads act on one shared state, one atomic step at a time and **in any order**;
new ones start at any moment, and the shared state also has steps of its own. There is no
scheduler: a run is a sequence of steps, whoever takes them.

An invariant of such a system (`Kept`) speaks of the shared state together with what the threads
own between them, which is a sum in a commutative monoid, and gives each thread one fact about
the shared state that the steps of all the others leave alone.
-/

namespace Retrograd.Logic

open List Option
open Relation (ReflTransGen)

/-- A shared state, and the threads that act on it. -/
structure Config (S L : Type) where
  shared : S
  threads : List L

variable {S L : Type}

/-- One step of the system: of the shared state by itself, of a thread that starts, or of one of
the threads. -/
inductive Interleaved (own : S → S → Prop) (fresh : L → Prop) (step : L → S → L → S → Prop) :
    Config S L → Config S L → Prop
  | own {s s' : S} (threads : List L) (h : own s s') :
    Interleaved own fresh step ⟨s, threads⟩ ⟨s', threads⟩
  | spawn (s : S) (threads : List L) {l : L} (h : fresh l) :
    Interleaved own fresh step ⟨s, threads⟩ ⟨s, l :: threads⟩
  | act {s s' : S} {l l' : L} (before after : List L) (h : step l s l' s') :
    Interleaved own fresh step ⟨s, before ++ l :: after⟩ ⟨s', before ++ l' :: after⟩

variable {own own' : S → S → Prop} {fresh fresh' : L → Prop} {step step' : L → S → L → S → Prop}
  {c c' : Config S L}

/-- Fewer steps make fewer runs. -/
theorem Interleaved.mono (hown : ∀ s s', own s s' → own' s s') (hfresh : ∀ l, fresh l → fresh' l)
    (hstep : ∀ l s l' s', step l s l' s' → step' l s l' s')
    (h : Interleaved own fresh step c c') : Interleaved own' fresh' step' c c' := by
  cases h with
  | own threads h => exact .own threads (hown _ _ h)
  | spawn s threads h => exact .spawn s threads (hfresh _ h)
  | act before after h => exact .act before after (hstep _ _ _ _ h)

variable {M : Type} [AddCommMonoid M]

/-- What the threads own between them. -/
def total (share : L → M) (threads : List L) : M := (threads.map share).sum

@[simp] theorem total_nil (share : L → M) : total share [] = 0 := rfl

@[simp] theorem total_cons (share : L → M) (l : L) (threads : List L) :
    total share (l :: threads) = share l + total share threads := by
  simp [total]

theorem total_eq_zero {share : L → M} {threads : List L} (h : ∀ l ∈ threads, share l = 0) :
    total share threads = 0 := by
  unfold total
  exact sum_eq_zero fun x hx => by
    obtain ⟨l, hl, rfl⟩ := List.mem_map.mp hx
    exact h l hl

theorem total_map {N : Type} [AddCommMonoid N] (f : M →+ N) (share : L → M) (threads : List L) :
    f (total share threads) = total (fun l => f (share l)) threads := by
  unfold total
  rw [map_list_sum, List.map_map]
  rfl

/-- The share of one thread beside those of the others. -/
theorem total_middle (share : L → M) (before after : List L) (l : L) :
    total share (before ++ l :: after) = share l + total share (before ++ after) := by
  simp [total, add_left_comm]

theorem total_mem (share : L → M) {threads : List L} {l : L} (h : l ∈ threads) :
    ∃ rest, total share threads = share l + rest := by
  obtain ⟨before, after, rfl⟩ := append_of_mem h
  exact ⟨_, total_middle share before after l⟩

/-- An invariant `Inv` of the shared state and of what the threads own, and a fact `Knows` of
each thread, that every step keeps. -/
structure Kept (own : S → S → Prop) (fresh : L → Prop) (step : L → S → L → S → Prop)
    (Inv : S → M → Prop) (Knows : L → S → Prop) (share : L → M) : Prop where
  ownInv : ∀ s s' m, Inv s m → own s s' → Inv s' m
  /-- A step of the shared state leaves what a thread knows. -/
  ownKnows : ∀ s s' l m, Inv s (share l + m) → own s s' → Knows l s → Knows l s'
  freshInv : ∀ s l m, Inv s m → fresh l → Inv s (share l + m) ∧ Knows l s
  stepInv : ∀ l s l' s' m, Inv s (share l + m) → Knows l s → step l s l' s' →
    Inv s' (share l' + m) ∧ Knows l' s'
  /-- A step of one thread leaves what another one knows. -/
  stepKnows : ∀ l s l' s' k m, Inv s (share l + (share k + m)) → Knows l s → Knows k s →
    step l s l' s' → Knows k s'

variable {Inv : S → M → Prop} {Knows : L → S → Prop} {share : L → M}

/-- The invariant of a configuration. -/
def Holds (Inv : S → M → Prop) (Knows : L → S → Prop) (share : L → M) (c : Config S L) : Prop :=
  Inv c.shared (total share c.threads) ∧ ∀ l ∈ c.threads, Knows l c.shared

theorem Kept.next (hkept : Kept own fresh step Inv Knows share)
    (hholds : Holds Inv Knows share c) (h : Interleaved own fresh step c c') :
    Holds Inv Knows share c' := by
  obtain ⟨hinv, hknows⟩ := hholds
  cases h with
  | own threads h =>
    refine ⟨hkept.ownInv _ _ _ hinv h, fun l hl => ?_⟩
    obtain ⟨rest, hrest⟩ := total_mem share hl
    exact hkept.ownKnows _ _ l rest (hrest ▸ hinv) h (hknows l hl)
  | spawn s threads h =>
    obtain ⟨hinv', hfresh⟩ := hkept.freshInv _ _ _ hinv h
    refine ⟨by rwa [total_cons], fun k hk => ?_⟩
    rcases mem_cons.mp hk with rfl | hk
    · exact hfresh
    · exact hknows k hk
  | @act s s' l l' before after h =>
    have hmine : Knows l s := hknows l (by simp)
    dsimp only at hinv
    rw [total_middle] at hinv
    obtain ⟨hinv', hmine'⟩ := hkept.stepInv _ _ _ _ _ hinv hmine h
    refine ⟨by rwa [total_middle], fun k hk => ?_⟩
    rcases mem_append.mp hk with hk | hk
    · obtain ⟨rest, hrest⟩ := total_mem share (mem_append_left after hk)
      exact hkept.stepKnows l s l' s' k rest (hrest ▸ hinv) hmine
        (hknows k (mem_append_left _ hk)) h
    · rcases mem_cons.mp hk with rfl | hk
      · exact hmine'
      · obtain ⟨rest, hrest⟩ := total_mem share (mem_append_right before hk)
        exact hkept.stepKnows l s l' s' k rest (hrest ▸ hinv) hmine
          (hknows k (mem_append_right _ (mem_cons_of_mem _ hk))) h

/-- **The invariant rule**: what every step keeps holds at the end of every run. -/
theorem Kept.run (hkept : Kept own fresh step Inv Knows share) (hholds : Holds Inv Knows share c)
    (h : ReflTransGen (Interleaved own fresh step) c c') : Holds Inv Knows share c' := by
  induction h with
  | refl => exact hholds
  | tail _ hstep ih => exact hkept.next ih hstep

/-! ### Playing a run -/

section Play

variable {C : Type}

/-- A choice of what happens next. -/
inductive Move (C L : Type)
  | own (choice : C)
  | spawn (l : L)
  | act (index : ℕ)

/-- The configuration after one move, when it can be made. -/
def Move.play (own : C → S → Option S) (step : L → S → Option (L × S)) (c : Config S L) :
    Move C L → Option (Config S L)
  | .own choice => (own choice c.shared).map fun s => ⟨s, c.threads⟩
  | .spawn l => some ⟨c.shared, l :: c.threads⟩
  | .act index => c.threads[index]?.bind fun l =>
    (step l c.shared).map fun next => ⟨next.2, c.threads.set index next.1⟩

/-- The configuration after a schedule of moves. -/
def play (own : C → S → Option S) (step : L → S → Option (L × S)) (c : Config S L)
    (moves : List (Move C L)) : Option (Config S L) :=
  moves.foldlM (Move.play own step) c

variable {own : C → S → Option S} {step : L → S → Option (L × S)} {fresh : L → Prop}
  {moves : List (Move C L)}

/-- A schedule that starts only threads that may start is a run of the system. -/
theorem run_of_play (hfresh : ∀ l, .spawn l ∈ moves → fresh l)
    (h : play own step c moves = some c') :
    ReflTransGen (Interleaved (fun s s' => ∃ choice, own choice s = some s') fresh
      fun l s l' s' => step l s = some (l', s')) c c' := by
  induction moves generalizing c with
  | nil =>
    cases h
    exact .refl
  | cons move moves ih =>
    rw [play, foldlM_cons] at h
    obtain ⟨next, hmove, hrest⟩ := bind_eq_some_iff.mp h
    refine .head ?_ (ih (fun l hl => hfresh l (mem_cons_of_mem _ hl)) hrest)
    cases move with
    | own choice =>
      obtain ⟨s, hs, rfl⟩ := map_eq_some_iff.mp hmove
      exact .own c.threads ⟨choice, hs⟩
    | spawn l =>
      cases hmove
      exact .spawn c.shared c.threads (hfresh l mem_cons_self)
    | act index =>
      obtain ⟨l, hl, hnext⟩ := bind_eq_some_iff.mp hmove
      obtain ⟨⟨l', s'⟩, hs, rfl⟩ := map_eq_some_iff.mp hnext
      obtain ⟨hindex, rfl⟩ := List.getElem?_eq_some_iff.mp hl
      have hthreads : (⟨c.shared, c.threads⟩ : Config S L) = ⟨c.shared,
          c.threads.take index ++ c.threads[index] :: c.threads.drop (index + 1)⟩ := by
        rw [getElem_cons_drop, take_append_drop]
      have hset : c.threads.set index l' =
          c.threads.take index ++ l' :: c.threads.drop (index + 1) := by
        rw [set_eq_take_append_cons_drop, if_pos hindex]
      show Interleaved _ _ _ ⟨c.shared, c.threads⟩ ⟨s', c.threads.set index l'⟩
      rw [hthreads, hset]
      exact .act _ _ hs

end Play

end Retrograd.Logic
