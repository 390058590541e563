import Retrograd.Infer.Admission
import Retrograd.Infer.Advance

/-!
# Before a step

What an iteration does before it composes its step: it drops the queued requests that were
cancelled, removes the cancelled members, frees retired adapters, admits, and advances the
phases. `Stable` is the invariant of a scheduler **between its caller's operations**; the
requests `lost` are owed to nobody's stream any more: earlier passes failed with them in hand.
-/

namespace Retrograd.Infer

open Logic List

variable {w : World} {s s' s'' : Scheduler} {pending extra lost : List Queued}

/-- The invariant of a scheduler between operations. -/
structure Stable (w : World) (lost : List Queued) (s : Scheduler) : Prop where
  inv : Inv w (s.queue ++ s.inHand ++ lost) s
  settled : Settled w s
  peopled : Peopled s

/-- How an iteration fails: with an error that leaves everything accounted for, the requests of
earlier passes apart, or because every request id is in use. -/
def StepFailed (w : World) (lost : List Queued) (stop : Stop) (s' : Scheduler) : Prop :=
  (stop = .noFreeId ∧ i32Max ≤ w.nSlots) ∨ ((∃ error, stop = .error error) ∧
    ∃ lost', Inv w (s'.queue ++ s'.inHand ++ lost') s' ∧ (lost = [] → lost' = []))

theorem PassFailed.step {stop : Stop} (h : PassFailed w lost stop s') :
    StepFailed w lost stop s' := by
  rcases h with h | ⟨herror, hinv⟩
  · exact .inl h
  · exact .inr ⟨herror, lost, hinv, id⟩

/-- Queued requests whose client is gone are dropped. -/
theorem Inv.dropQueued (queue : List Queued) : ∀ {extra : List Queued},
    Inv w (queue ++ extra) s →
    Inv w (queue.filter (fun queued => !(s.streams queued.stream).cancelled) ++ extra) s := by
  induction queue with
  | nil => exact fun h => h
  | cons queued queue ih =>
    intro extra h
    rw [filter_cons]
    cases hcancelled : (s.streams queued.stream).cancelled with
    | true =>
      exact ih {
        h with
        ledger := h.ledger.drop (h.ledger.cancelled _ hcancelled)
        valid := fun q hq => h.valid q (mem_cons_of_mem _ hq) }
    | false =>
      have hmove : (queue ++ queued :: extra).Perm (queued :: queue ++ extra) := perm_middle
      exact (ih (h.perm hmove)).perm perm_middle.symm

/-- An iteration before its step leaves every group ready, and nothing in hand. -/
theorem prepare_spec (h : Stable w lost s) :
    wp (prepare w) (fun _ s' => Prepared w (s'.queue ++ (s.inHand ++ lost)) s' ∧ s'.inHand = [])
      (StepFailed w (s.inHand ++ lost)) s := by
  have hinv := h.inv
  rw [append_assoc] at hinv
  obtain ⟨queue, hqueue⟩ : ∃ queue, queue =
      s.queue.filter fun queued => !(s.streams queued.stream).cancelled := ⟨_, rfl⟩
  obtain ⟨s₀, hs₀⟩ : ∃ s₀ : Scheduler, s₀ = { s with queue } := ⟨_, rfl⟩
  have h₀ : Inv w (s₀.queue ++ (s.inHand ++ lost)) s₀ := by
    rw [hs₀, hqueue]
    exact (Inv.dropQueued s.queue hinv).withQueue _ s.inHand
  have hsettled₀ : Settled w s₀ := by
    rw [hs₀]
    exact h.settled.withQueue queue s.inHand
  have hhand₀ : s₀.inHand = s.inHand := by rw [hs₀]
  have hbroken : ∀ {s₁ stop s₂}, s₁.inHand = s.inHand → Aside s₀ s₁ →
      Broken w (s₀.queue ++ (s.inHand ++ lost)) s₁ stop s₂ →
      StepFailed w (s.inHand ++ lost) stop s₂ := by
    rintro s₁ stop s₂ hhand₁ ha₁ ⟨herror, h₂, ha₂⟩
    refine .inr ⟨herror, lost, ?_, fun hnil => (append_eq_nil_iff.mp hnil).2⟩
    rw [ha₂.inHand, hhand₁, ha₂.queue, ha₁.queue, append_assoc]
    exact h₂
  unfold prepare
  rw [wp_bind, wp_modify, ← hqueue, ← hs₀, wp_bind]
  refine wp_mono (removeCancelled_spec h₀ hsettled₀) ?_ fun _ _ hf =>
    hbroken hhand₀ (Aside.refl s₀) hf
  rintro _ s₁ ⟨h₁, ha₁, hsettled₁, hpeopled₁⟩
  have hpass : ∀ s₂, Inv w (s₀.queue ++ (s.inHand ++ lost)) s₂ → Aside s₀ s₂ → Settled w s₂ →
      Peopled s₂ → wp (do
        admitPass w
        advancePhases w) (fun _ s' => Prepared w (s'.queue ++ (s.inHand ++ lost)) s' ∧
          s'.inHand = []) (StepFailed w (s.inHand ++ lost)) s₂ := by
    intro s₂ h₂ ha₂ hsettled₂ hpeopled₂
    have hhand₂ : s₂.inHand = s.inHand := ha₂.inHand.trans hhand₀
    rw [wp_bind]
    have h₂' : Inv w (s₂.queue ++ s₂.inHand ++ lost) s₂ := by
      rw [hhand₂, ha₂.queue, append_assoc]
      exact h₂
    refine wp_mono (admitPass_spec h₂' hsettled₂ hpeopled₂) ?_ fun _ _ hf => ?_
    · rintro _ s₃ h₃
      rw [hhand₂] at h₃
      refine wp_mono (advancePhases_spec h₃.inv h₃.settled h₃.peopled) ?_ ?_
      · rintro _ s₄ ⟨h₄, ha₄⟩
        rw [ha₄.queue]
        exact ⟨h₄, ha₄.inHand.trans h₃.empty⟩
      · rintro stop s₄ ⟨herror, h₄, ha₄⟩
        refine .inr ⟨herror, s.inHand ++ lost, ?_, id⟩
        rw [ha₄.queue, ha₄.inHand, h₃.empty, append_nil]
        exact h₄
    · rw [hhand₂] at hf
      exact hf.step
  rw [wp_bind, wp_get]
  dsimp only
  rw [wp_ite]
  refine ⟨fun _ => ?_, fun _ => hpass s₁ h₁ ha₁ hsettled₁ hpeopled₁⟩
  rw [wp_bind]
  obtain ⟨P, hp⟩ := h₁.pool
  refine wp_mono (releaseRetired_spec hp) ?_ ?_
  · rintro _ s₂ ⟨P₂, hp₂, hu₂, -⟩
    exact hpass s₂ (h₁.frame hu₂.toFrame hp₂) (ha₁.trans hu₂.toBeside.aside)
      (hsettled₁.frame hu₂.toFrame) (hpeopled₁.congr hu₂.live)
  · rintro stop s₂ ⟨herror, -, P₂, hp₂, hu₂, -⟩
    exact hbroken (ha₁.inHand.trans hhand₀) ha₁
      ⟨herror, h₁.frame hu₂.toFrame hp₂, hu₂.toBeside.aside⟩

end Retrograd.Infer
