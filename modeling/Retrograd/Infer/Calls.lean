import Retrograd.Infer.Retention

/-!
# Backend calls

The specification of each backend call the scheduler makes: which slot it writes, and that
nothing else of the scheduler moves but the number of calls made. A call that is not refused
fails only in an unreliable world, and then it did nothing.
-/

namespace Retrograd.Infer

open Logic

variable {w : World} {s s' s'' : Scheduler}

/-- `s'` is `s` after calls that changed nothing. -/
def Quiet (s s' : Scheduler) : Prop :=
  ∃ calls, s' = { s with backend := { s.backend with calls } }

/-- How a call fails: with an error, only in an unreliable world, and without any effect. -/
def QuietFails (w : World) (s : Scheduler) (stop : Stop) (s' : Scheduler) : Prop :=
  (∃ error, stop = .error error) ∧ ¬w.Reliable ∧ Quiet s s'

theorem Quiet.refl (s : Scheduler) : Quiet s s := ⟨s.backend.calls, rfl⟩

theorem Quiet.trans (h : Quiet s s') (h' : Quiet s' s'') : Quiet s s'' := by
  obtain ⟨_, rfl⟩ := h
  obtain ⟨calls, rfl⟩ := h'
  exact ⟨calls, rfl⟩

theorem QuietFails.trans {stop : Stop} (h : Quiet s s') (h' : QuietFails w s' stop s'') :
    QuietFails w s stop s'' :=
  ⟨h'.1, h'.2.1, h.trans h'.2.2⟩

theorem not_reliable_of_fault {n : ℕ} {error : InferError} (h : w.fault n = some error) :
    ¬w.Reliable := fun hw => by
  rw [hw.fault n] at h
  cases h

variable {α : Type} {E : Stop → Scheduler → Prop}

/-- A call whose reply is known. -/
theorem wp_invoke {f : Backend → Reply α} {Q : α → Scheduler → Prop}
    (hfault : ∀ stop s', QuietFails w s stop s' → E stop s')
    (hok : ∀ calls a b, f { s.backend with calls } = (.ok a, b) → Q a { s with backend := b })
    (herror : ∀ calls error b, f { s.backend with calls } = (.error error, b) → E (.error error) { s with backend := b }) :
    wp (invoke w f) Q E s := by
  unfold wp invoke
  cases hcase : w.fault s.backend.calls with
  | some error => exact hfault _ _ ⟨⟨error, rfl⟩, not_reliable_of_fault hcase, ⟨_, rfl⟩⟩
  | none =>
    dsimp only
    rcases hr : f { s.backend with calls := s.backend.calls + 1 } with ⟨r, b⟩
    cases r with
    | ok a => exact hok _ a b hr
    | error error => exact herror _ error b hr

/-- A program whose error is forgotten. -/
theorem wp_attempt {m : M α} {Q : Option α → Scheduler → Prop}
    (h : wp m (fun a s' => Q (some a) s') (fun stop s' => match stop with | .error _ => Q none s' | stop => E stop s') s) :
    wp (attempt m) Q E s := by
  unfold attempt
  rw [wp_bind, wp_settle]
  refine wp_mono h (fun a s' hq => hq) fun stop s' hq => ?_
  cases stop <;> exact hq

/-- Forgetting the error of a call leaves no way to fail. -/
theorem wp_attempt_call {m : M α} {Q : Option α → Scheduler → Prop}
    (h : wp m (fun a s' => Q (some a) s') (QuietFails w s) s)
    (hnone : ∀ s', Quiet s s' → Q none s') : wp (attempt m) Q E s := by
  refine wp_attempt (wp_mono h (fun _ _ hq => hq) ?_)
  rintro stop s' ⟨⟨error, rfl⟩, -, hq⟩
  exact hnone s' hq

theorem query_spec (a : α) :
    wp (query w a) (fun a' s' => a' = a ∧ Quiet s s') (QuietFails w s) s := by
  refine wp_invoke (fun _ _ hf => hf) (fun calls a' b hb => ?_) fun calls error b hb => by cases hb
  cases hb
  exact ⟨rfl, ⟨_, rfl⟩⟩

theorem memory_spec : wp (memory w)
    (fun m s' => m = ⟨w.nSlots, w.cellsTotal, s.backend.cellsUsed w⟩ ∧ Quiet s s')
    (QuietFails w s) s := by
  refine wp_invoke (fun _ _ hf => hf) (fun calls a b hb => ?_) fun calls error b hb => by cases hb
  cases hb
  exact ⟨rfl, ⟨_, rfl⟩⟩

theorem backendAdapter_spec : wp (backendAdapter w)
    (fun a s' => a = s.backend.activeAdapter ∧ Quiet s s') (QuietFails w s) s := by
  refine wp_invoke (fun _ _ hf => hf) (fun calls a b hb => ?_) fun calls error b hb => by cases hb
  cases hb
  exact ⟨rfl, ⟨_, rfl⟩⟩

theorem cacheKey_spec : wp (cacheKey w)
    (fun key s' => key = s.backend.cacheKey w ∧ Quiet s s') (QuietFails w s) s := by
  unfold cacheKey
  simp only [wp_bind, wp_get, wp_pure]
  refine wp_mono (query_spec ()) ?_ fun _ _ hf => hf
  rintro _ s₁ ⟨-, h₁⟩
  refine wp_mono (query_spec ()) ?_ fun _ _ hf => hf.trans h₁
  rintro _ s₂ ⟨-, h₂⟩
  have h₂ := h₁.trans h₂
  refine wp_mono memory_spec ?_ fun _ _ hf => hf.trans h₂
  rintro _ s₃ ⟨-, h₃⟩
  have h₃ := h₂.trans h₃
  refine wp_mono (query_spec ()) ?_ fun _ _ hf => hf.trans h₃
  rintro _ s₄ ⟨-, h₄⟩
  have h₄ := h₃.trans h₄
  refine wp_mono (query_spec ()) ?_ fun _ _ hf => hf.trans h₄
  rintro _ s₅ ⟨-, h₅⟩
  obtain ⟨calls, rfl⟩ := h₄.trans h₅
  exact ⟨rfl, ⟨calls, rfl⟩⟩

/-! ### Slots -/

/-- Puts cells in a slot, and moves the next fresh cell. -/
def Scheduler.withSlot (s : Scheduler) (σ : ℕ) (cells : List Cell) (nextCell : ℕ) : Scheduler :=
  { s with backend := { s.backend.setSlot σ cells with nextCell } }

variable {σ : ℕ}

theorem seqRm_spec (hσ : σ < w.nSlots) : wp (seqRm w σ)
    (fun _ s' => Quiet (s.withSlot σ [] s.backend.nextCell) s') (QuietFails w s) s := by
  refine wp_invoke (fun _ _ hf => hf) (fun calls a b hb => ?_) fun calls error b hb => ?_
  · simp only [Backend.seqRm, Nat.not_le.mpr hσ, if_false, Prod.mk.injEq, true_and] at hb
    subst hb
    exact ⟨calls, rfl⟩
  · simp [Backend.seqRm, Nat.not_le.mpr hσ] at hb

theorem Backend.contents_freshCells (b : Backend) (l : List (Token × Tag)) :
    contents (b.freshCells l) = l := by
  simp [contents, freshCells, Cell.content, List.mapIdx_eq_zipIdx_map, Function.comp_def]

/-- A copy from a slot that holds something into an empty one. On a unified pool it shares the
cells it copies. -/
theorem seqCp_spec {src dst : ℕ} {upTo : Option ℕ} (hsrc : src < w.nSlots) (hdst : dst < w.nSlots)
    (hup : upTo.isSome → w.kvUnified = true)
    (hfull : w.Reliable → s.backend.slots src ≠ [] ∧ s.backend.slots dst = []) :
    wp (seqCp w src dst upTo) (fun _ s' => ∃ cells next,
      Quiet (s.withSlot dst cells next) s' ∧
      contents cells = contents (upTo.elim (s.backend.slots src) fun n =>
        (s.backend.slots src).take n) ∧
      (w.kvUnified = true → next = s.backend.nextCell ∧
        cells = upTo.elim (s.backend.slots src) fun n => (s.backend.slots src).take n))
      (QuietFails w s) s := by
  have hup' : (upTo.isSome && !w.kvUnified) = false := by
    cases hsome : upTo.isSome
    · rfl
    · rw [hup hsome]
      rfl
  have hrefused : ∀ calls error b,
      Backend.seqCp w src dst upTo { s.backend with calls } = (.error error, b) →
      b = { s.backend with calls } ∧
        (s.backend.slots src = [] ∨ s.backend.slots dst ≠ []) := by
    intro calls error b hb
    simp only [Backend.seqCp, Nat.not_le.mpr hsrc, Nat.not_le.mpr hdst, hup', decide_false,
      Bool.or_false, Bool.false_eq_true, if_false] at hb
    grind
  refine wp_invoke (fun _ _ hf => hf) (fun calls a b hb => ?_) fun calls error b hb => ?_
  · simp only [Backend.seqCp, Nat.not_le.mpr hsrc, Nat.not_le.mpr hdst, hup', decide_false,
      Bool.or_false, Bool.false_eq_true, if_false] at hb
    split at hb
    · cases hb
    split at hb
    · cases hb
    cases upTo with
    | none =>
      dsimp only [Option.elim] at hb ⊢
      split at hb <;> cases hb
      · exact ⟨_, _, ⟨calls, rfl⟩, rfl, fun _ => ⟨rfl, rfl⟩⟩
      · next hu =>
        exact ⟨_, _, ⟨calls, rfl⟩, Backend.contents_freshCells .., fun h => absurd h hu⟩
    | some n =>
      dsimp only [Option.elim] at hb ⊢
      split at hb <;> cases hb
      · exact ⟨_, _, ⟨calls, rfl⟩, rfl, fun _ => ⟨rfl, rfl⟩⟩
      · next hu =>
        exact ⟨_, _, ⟨calls, rfl⟩, Backend.contents_freshCells .., fun h => absurd h hu⟩
  · obtain ⟨rfl, hcase⟩ := hrefused calls error b hb
    refine ⟨⟨error, rfl⟩, fun hw => ?_, ⟨calls, rfl⟩⟩
    obtain ⟨h₁, h₂⟩ := hfull hw
    exact hcase.elim h₁ fun h => h h₂

theorem seqLoad_spec (snapshot : Snapshot) (hσ : σ < w.nSlots) :
    wp (invoke w (Backend.seqLoad w σ snapshot)) (fun _ s' => ∃ cells,
      Quiet (s.withSlot σ cells (s.backend.nextCell + snapshot.contents.length)) s' ∧
      cells = s.backend.freshCells snapshot.contents) (QuietFails w s) s := by
  refine wp_invoke (fun _ _ hf => hf) (fun calls a b hb => ?_) fun calls error b hb => ?_
  · simp only [Backend.seqLoad, Nat.not_le.mpr hσ, if_false, Prod.mk.injEq, true_and] at hb
    subst hb
    exact ⟨_, ⟨calls, rfl⟩, rfl⟩
  · simp [Backend.seqLoad, Nat.not_le.mpr hσ] at hb

/-- What `seqPos` answers for a slot. -/
def span (cells : List Cell) : ℤ × ℤ := if cells.isEmpty then (-1, -1) else (0, cells.length - 1)

theorem seqPos_spec (hσ : σ < w.nSlots) :
    wp (invoke w (Backend.seqPos w σ)) (fun p s' => p = span (s.backend.slots σ) ∧ Quiet s s')
      (QuietFails w s) s := by
  refine wp_invoke (fun _ _ hf => hf) (fun calls a b hb => ?_) fun calls error b hb => ?_
  · simp only [Backend.seqPos, Nat.not_le.mpr hσ, if_false] at hb
    unfold span
    split at hb <;> cases hb
    · next he => exact ⟨(if_pos he).symm, ⟨calls, rfl⟩⟩
    · next he => exact ⟨(if_neg he).symm, ⟨calls, rfl⟩⟩
  · simp only [Backend.seqPos, Nat.not_le.mpr hσ, if_false] at hb
    split at hb <;> cases hb

theorem seqSaveLen_spec (hσ : σ < w.nSlots) :
    wp (invoke w (Backend.seqSaveLen w σ)) (fun _ s' => Quiet s s') (QuietFails w s) s := by
  refine wp_invoke (fun _ _ hf => hf) (fun calls a b hb => ?_) fun calls error b hb => ?_
  · simp only [Backend.seqSaveLen, Nat.not_le.mpr hσ, if_false] at hb
    cases hb
    exact ⟨calls, rfl⟩
  · simp [Backend.seqSaveLen, Nat.not_le.mpr hσ] at hb

/-- A saved snapshot restores what the slot holds; nothing is saved of an empty one. -/
theorem seqSaveInto_spec (hσ : σ < w.nSlots) :
    wp (attempt (invoke w (Backend.seqSaveInto w σ))) (fun snapshot s' => Quiet s s' ∧
      ∀ snap, snapshot = some snap → snap.contents = contents (s.backend.slots σ))
      (fun _ _ => False) s := by
  refine wp_attempt (wp_invoke ?_ (fun calls a b hb => ?_) fun calls error b hb => ?_)
  · rintro stop s' ⟨⟨error, rfl⟩, -, hq⟩
    exact ⟨hq, by simp⟩
  · simp only [Backend.seqSaveInto, Nat.not_le.mpr hσ, if_false] at hb
    split at hb <;> cases hb
    exact ⟨⟨calls, rfl⟩, by rintro snap ⟨⟩; rfl⟩
  · simp only [Backend.seqSaveInto, Nat.not_le.mpr hσ, if_false] at hb
    split at hb <;> cases hb
    exact ⟨⟨calls, rfl⟩, by simp⟩

end Retrograd.Infer
