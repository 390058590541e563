import Retrograd.Infer.Waves

/-!
# The admission pass

Every queued request is looked at in each pass: it is **refused** when it can never be served,
set aside when it needs another serialized adapter than the pass admits for, and otherwise
admitted from the front as long as it fits. A pass that succeeds leaves nothing in hand.
-/

namespace Retrograd.Infer

open Logic List Option

variable {w : World} {s s' s'' : Scheduler} {pending extra lost : List Queued}

/-! ### Refusing requests -/

/-- Programs that send to streams change nothing else. -/
def Streamed (s s' : Scheduler) : Prop := ∃ streams, s' = { s with streams }

theorem Streamed.refl (s : Scheduler) : Streamed s s := ⟨s.streams, rfl⟩

theorem Streamed.trans (h : Streamed s s') (h' : Streamed s' s'') : Streamed s s'' := by
  obtain ⟨_, rfl⟩ := h
  obtain ⟨streams, rfl⟩ := h'
  exact ⟨streams, rfl⟩

variable {E : Stop → Scheduler → Prop}

/-- A pending request is told an error, and pending no more. -/
theorem refuse_spec {queued : Queued} (error : InferError) (h : Inv w (queued :: pending) s) :
    wp (trySend queued.stream (.error error)) (fun _ s' => Inv w pending s' ∧ Streamed s s') E
      s := by
  refine wp_mono (trySend_spec _ _) ?_ fun _ _ hf => hf
  rintro _ s₁ ⟨taken, st, ho, rfl⟩
  exact ⟨h.withStream (h.ledger.refuse ho) fun q hq => h.valid q (mem_cons_of_mem _ hq),
    ⟨_, rfl⟩⟩

/-- The requests without a refusal stay pending. -/
theorem refuseQueued_spec (refusal : Queued → Option InferError) (queue : List Queued) :
    ∀ {extra : List Queued} {s : Scheduler}, Inv w (queue ++ extra) s →
    wp (refuseQueued refusal queue) (fun kept s' => Inv w (kept ++ extra) s' ∧ Streamed s s' ∧
      kept = queue.filter fun q => (refusal q).isNone) E s := by
  induction queue with
  | nil => exact fun h => ⟨h, Streamed.refl _, rfl⟩
  | cons queued queue ih =>
    intro extra s h
    unfold refuseQueued
    rw [filter_cons]
    cases hrefusal : refusal queued with
    | some error =>
      dsimp only
      rw [wp_bind]
      refine wp_mono (refuse_spec error h) ?_ fun _ _ hf => hf
      rintro _ s₁ ⟨h₁, ht₁⟩
      refine wp_mono (ih h₁) ?_ fun _ _ hf => hf
      rintro kept s₂ ⟨h₂, ht₂, hkept⟩
      exact ⟨h₂, ht₁.trans ht₂, hkept⟩
    | none =>
      dsimp only
      rw [wp_bind]
      have hmove : (queue ++ queued :: extra).Perm (queued :: queue ++ extra) :=
        perm_middle
      refine wp_mono (ih (h.perm hmove)) ?_ fun _ _ hf => hf
      rintro kept s₁ ⟨h₁, ht₁, hkept⟩
      exact ⟨h₁.perm perm_middle.symm, ht₁, by rw [hkept]; rfl⟩

/-- Refusing every request of a list. -/
theorem refuseAll_spec (error : InferError) (queue : List Queued) (h : Inv w (queue ++ extra) s) :
    wp (queue.forM fun queued => trySend queued.stream (.error error))
      (fun _ s' => Inv w extra s' ∧ Streamed s s') E s := by
  refine wp_forM_list (fun rest s' => Inv w (rest ++ extra) s' ∧ Streamed s s') ?_
    ⟨h, Streamed.refl s⟩
  rintro queued rest s₁ ⟨h₁, ht₁⟩
  refine wp_mono (refuse_spec error h₁) ?_ fun _ _ hf => hf
  exact fun _ s₂ ⟨h₂, ht₂⟩ => ⟨h₂, ht₁.trans ht₂⟩

/-- The queue is no part of the invariant, which only knows who is pending. -/
theorem Inv.withQueue (h : Inv w pending s) (queue inHand : List Queued) :
    Inv w pending { s with queue, inHand } := by
  obtain ⟨P, hp⟩ := h.pool
  exact {
    pool := ⟨P, hp.congr rfl rfl rfl rfl rfl rfl (hp.rows.congr rfl rfl rfl rfl rfl)⟩
    live := { h.live with }
    ledger := h.ledger
    valid := h.valid }

theorem Settled.withQueue (h : Settled w s) (queue inHand : List Queued) :
    Settled w { s with queue, inHand } :=
  h.kept rfl fun _ _ => rfl

theorem Settled.streamed (h : Settled w s) (ht : Streamed s s') : Settled w s' := by
  obtain ⟨streams, rfl⟩ := ht
  exact h.kept rfl fun _ _ => rfl

/-! ### Switching adapters -/

/-- A program that only runs while nothing is live keeps the invariant when it keeps the pool. -/
theorem Inv.idle {P' : Labels} (h : Inv w pending s) (hidle : s.live = []) (hb : Beside s s')
    (hp : Pool w [] P' s') : Inv w pending s' := by
  have hslots : s'.liveSlots = [] := by
    rw [Scheduler.liveSlots, hb.live, hidle]
    rfl
  refine ⟨⟨P', hslots ▸ hp⟩, ?_, ?_, h.valid⟩
  · have hlive := h.live
    constructor
    case slots_nodup => rw [hslots]; exact nodup_nil
    case slots_lt => rw [hslots]; exact fun _ h => (not_mem_nil h).elim
    case ids_nodup => rw [hb.live]; exact hlive.ids_nodup
    case ids_range => rw [hb.live]; exact hlive.ids_range
    case next_range => rw [hb.nextRequestId]; exact hlive.next_range
    case next_free => rw [hb.live, hb.nextRequestId]; exact hlive.next_free
    case shape => rw [hb.live]; exact hlive.shape
    case content =>
      intro _ group hg
      rw [hb.live, hidle] at hg
      cases hg
  · rw [Scheduler.keys, hb.live, hb.streams, hb.nextStream]
    exact h.ledger

theorem Inv.pool_idle (h : Inv w pending s) (hidle : s.live = []) : ∃ P, Pool w [] P s := by
  obtain ⟨P, hp⟩ := h.pool
  rw [Scheduler.liveSlots, hidle] at hp
  exact ⟨P, hp⟩

/-! ### One pass -/

/-- What a successful pass leaves. -/
structure PassDone (w : World) (extra : List Queued) (s' : Scheduler) : Prop where
  inv : Inv w (s'.queue ++ extra) s'
  settled : Settled w s'
  peopled : Peopled s'
  empty : s'.inHand = []

/-- How a pass fails. -/
def PassFailed (w : World) (extra : List Queued) (stop : Stop) (s' : Scheduler) : Prop :=
  (stop = .noFreeId ∧ i32Max ≤ w.nSlots) ∨
    ((∃ error, stop = .error error) ∧ Inv w (s'.queue ++ s'.inHand ++ extra) s')

/-- The rest of a pass, once the target adapter is switched to or has failed to be. -/
private theorem admitSwitched_spec {nCtxSeq : ℕ} {candidates rest queue : List Queued} {s₁ : Scheduler}
    (hperm : (candidates ++ rest).Perm queue)
    (hctx : ∀ q ∈ queue, q.request.prompt.length < nCtxSeq) {switched : Except Stop Unit}
    (hswitched : switched = .ok () ∨ ∃ error, switched = .error (.error error))
    (h₁ : Inv w (queue ++ extra) s₁) (hs₁ : Settled w s₁) (hpeopled₁ : Peopled s₁)
    (hhand₁ : s₁.inHand = []) :
    wp (do
      match switched with
      | .error (.error error) =>
        candidates.forM fun queued => trySend queued.stream (.error error.clone)
        modify fun s => { s with queue := rest }
      | .error stop => throw stop
      | .ok () =>
        modify fun s => { s with queue := candidates }
        let admitted ← settle (admitCandidates w nCtxSeq)
        modify fun s => { s with queue := rest ++ s.queue }
        match admitted with
        | .ok () => pure ()
        | .error stop => throw stop)
      (fun _ s' => PassDone w extra s') (PassFailed w extra) s₁ := by
  have hperm' : (candidates ++ (rest ++ extra)).Perm (queue ++ extra) := by
    rw [← append_assoc]
    exact hperm.append_right extra
  rcases hswitched with rfl | ⟨error, rfl⟩
  · dsimp only
    rw [wp_bind, wp_modify, wp_bind, wp_settle]
    have hcandidates : Inv w (candidates ++ [] ++ (rest ++ extra))
        { s₁ with queue := candidates } := by
      rw [append_nil]
      exact (h₁.perm hperm').withQueue candidates s₁.inHand
    have hadmitting : Admitting w (rest ++ extra) { s₁ with queue := candidates } := by
      refine ⟨?_, hs₁.withQueue candidates s₁.inHand, hpeopled₁⟩
      have hnil : candidates ++ s₁.inHand = candidates ++ [] := by rw [hhand₁]
      show Inv w (candidates ++ s₁.inHand ++ (rest ++ extra)) _
      rw [hnil]
      exact hcandidates
    refine wp_mono (admitCandidates_spec hadmitting (fun q hq => hctx q ?_) hhand₁) ?_ ?_
    · have hq : q ∈ candidates ++ s₁.inHand := hq
      rw [hhand₁, append_nil] at hq
      exact hperm.mem_iff.mp (mem_append_left _ hq)
    · rintro _ s₂ h₂
      rw [wp_bind, wp_modify]
      refine ⟨?_, h₂.admitting.settled.withQueue _ _, h₂.admitting.peopled, h₂.empty⟩
      have hinv := h₂.admitting.inv
      rw [h₂.empty, append_nil] at hinv
      refine (hinv.perm ?_).withQueue (rest ++ s₂.queue) s₂.inHand
      show (rest ++ s₂.queue ++ extra).Perm _
      rw [← append_assoc]
      exact perm_append_comm.append_right extra
    · rintro stop s₂ hstop
      rw [wp_bind, wp_modify]
      rcases hstop with hstop | ⟨herror, hinv, -⟩
      · exact .inl hstop
      · refine .inr ⟨herror, (hinv.perm ?_).withQueue (rest ++ s₂.queue) s₂.inHand⟩
        show (rest ++ s₂.queue ++ s₂.inHand ++ extra).Perm _
        rw [← append_assoc, append_assoc rest]
        exact perm_append_comm.append_right extra
  · dsimp only
    rw [wp_bind]
    refine wp_mono (refuseAll_spec error.clone candidates (h₁.perm hperm')) ?_ fun _ _ hf => hf
    rintro _ s₂ ⟨h₂, ht₂⟩
    rw [wp_modify]
    refine ⟨h₂.withQueue rest s₂.inHand, (hs₁.streamed ht₂).withQueue _ _, ?_, ?_⟩
    · obtain ⟨streams, rfl⟩ := ht₂
      exact hpeopled₁
    · obtain ⟨streams, rfl⟩ := ht₂
      exact hhand₁

/-- Admitting the requests for one target adapter: the others wait ahead of the candidates left
over. -/
theorem admitTarget_spec {nCtxSeq : ℕ} (h : Inv w (s.queue ++ extra) s) (hs : Settled w s)
    (hpeopled : Peopled s) (hhand : s.inHand = []) (hctx : ∀ q ∈ s.queue, q.request.prompt.length < nCtxSeq)
    (target : Option String) :
    wp (admitTarget w nCtxSeq target) (fun _ s' => PassDone w extra s') (PassFailed w extra)
      s := by
  obtain ⟨candidates, rest, hpart⟩ : ∃ a b, partitionQueue s target = (a, b) := ⟨_, _, rfl⟩
  have hperm : (candidates ++ rest).Perm s.queue := by
    have h₁ : (partitionQueue s target).1 = candidates := by rw [hpart]
    have h₂ : (partitionQueue s target).2 = rest := by rw [hpart]
    unfold partitionQueue at h₁ h₂
    rw [partition_eq_filter_filter] at h₁ h₂
    rw [← h₁, ← h₂]
    exact filter_append_perm _ _
  unfold admitTarget
  rw [wp_bind, wp_get, hpart]
  dsimp only
  rw [wp_ite]
  refine ⟨fun hidle => ?_, fun _ => admitSwitched_spec hperm hctx (.inl rfl) h hs hpeopled hhand⟩
  have hidle : s.live = [] := List.isEmpty_iff.mp hidle
  obtain ⟨P, hp⟩ := h.pool_idle hidle
  rw [wp_bind, wp_settle]
  refine wp_mono (ensureAdapter_spec hp target) ?_ ?_
  · rintro _ s₁ ⟨P₁, hp₁, hb, -⟩
    exact admitSwitched_spec hperm hctx (.inl rfl) (h.idle hidle hb hp₁)
      (settled_of_idle (hb.live.trans hidle)) (peopled_of_idle (hb.live.trans hidle))
      (hb.inHand.trans hhand)
  · rintro stop s₁ ⟨⟨error, rfl⟩, P₁, hp₁, hb, -⟩
    exact admitSwitched_spec hperm hctx (.inr ⟨error, rfl⟩) (h.idle hidle hb hp₁)
      (settled_of_idle (hb.live.trans hidle)) (peopled_of_idle (hb.live.trans hidle))
      (hb.inHand.trans hhand)

/-- A request that is possible fits the per-sequence context. -/
theorem inContext_of_possible {request : Request} {nCtxSeq nSlots vocab cellsTotal : ℕ}
    (h : impossible request nCtxSeq nSlots vocab cellsTotal = none) :
    request.prompt.length < nCtxSeq := by
  by_contra hle
  rw [Nat.not_lt] at hle
  simp [impossible, hle] at h

/-- Upkeep keeps a pass clear. -/
theorem PassDone.kept {P : Labels} (h : PassDone w extra s) (hk : Kept w s.liveSlots P s s') :
    PassDone w extra s' := by
  obtain ⟨P', hp, hu, -⟩ := hk
  refine ⟨?_, h.settled.frame hu.toFrame, h.peopled.congr hu.live, hu.inHand.trans h.empty⟩
  rw [hu.queue]
  exact h.inv.frame hu.toFrame hp

theorem PassDone.quiet (h : PassDone w extra s) (hq : Quiet s s') : PassDone w extra s' := by
  obtain ⟨P, hp⟩ := h.inv.pool
  exact h.kept (Kept.quiet hp hq)

/-- How the upkeep of a pass fails. -/
theorem PassDone.fails {P : Labels} {stop : Stop} (h : PassDone w extra s)
    (hf : Fails w s.liveSlots P s stop s') : PassFailed w extra stop s' := by
  have h' := h.kept hf.2.2
  refine .inr ⟨hf.1, ?_⟩
  rw [h'.empty, append_nil]
  exact h'.inv

theorem PassDone.quietFails {stop : Stop} (h : PassDone w extra s)
    (hf : QuietFails w s stop s') : PassFailed w extra stop s' := by
  obtain ⟨P, hp⟩ := h.inv.pool
  exact h.fails (hf.fails hp)

/-- The requests of the queue without a refusal become the queue. -/
theorem PassDone.refuse_spec (h : PassDone w extra s) (refusal : Queued → Option InferError) :
    wp (refuseQueued refusal s.queue) (fun kept s' =>
      PassDone w extra { s' with queue := kept } ∧
        kept = s.queue.filter fun q => (refusal q).isNone) E s := by
  refine wp_mono (refuseQueued_spec refusal s.queue h.inv) ?_ fun _ _ hf => hf
  rintro kept s₁ ⟨h₁, ht₁, hkept⟩
  refine ⟨⟨h₁.withQueue kept s₁.inHand, (h.settled.streamed ht₁).withQueue kept s₁.inHand, ?_, ?_⟩,
    hkept⟩
  · obtain ⟨streams, rfl⟩ := ht₁
    exact h.peopled
  · obtain ⟨streams, rfl⟩ := ht₁
    exact h.empty

/-- An admission pass keeps the invariant; what it held in hand before is lost to it. -/
theorem admitPass_spec (h : Inv w (s.queue ++ s.inHand ++ lost) s) (hs : Settled w s)
    (hpeopled : Peopled s) :
    wp (admitPass w) (fun _ s' => PassDone w (s.inHand ++ lost) s')
      (PassFailed w (s.inHand ++ lost)) s := by
  rw [append_assoc] at h
  have h₀ : PassDone w (s.inHand ++ lost) { s with inHand := [] } :=
    ⟨h.withQueue s.queue [], hs.withQueue s.queue [], hpeopled, rfl⟩
  obtain ⟨s₀, hs₀⟩ : ∃ s₀ : Scheduler, s₀ = { s with inHand := [] } := ⟨_, rfl⟩
  unfold admitPass
  rw [wp_bind, wp_modify, ← hs₀, wp_bind, wp_get, wp_ite]
  rw [← hs₀] at h₀
  refine ⟨fun _ => h₀, fun _ => ?_⟩
  obtain ⟨P₀, hp₀⟩ := h₀.inv.pool
  rw [wp_bind]
  refine wp_mono (refreshKey_spec hp₀.toOwners fun _ => hp₀) ?_ fun _ _ hf => h₀.fails hf
  rintro _ s₁ hk₁
  have h₁ := h₀.kept hk₁
  obtain ⟨P₁, hp₁⟩ := h₁.inv.pool
  rw [wp_bind]
  refine wp_mono (releaseExpiredRetained_spec hp₁) ?_ fun _ _ hf => h₁.fails hf
  rintro _ s₂ ⟨hp₂, hu₂⟩
  have h₂ := h₁.kept ⟨P₁, hp₂, hu₂, PrefixTree.Extends.refl _⟩
  obtain ⟨P₂, hp₂⟩ := h₂.inv.pool
  rw [wp_bind, wp_get, wp_bind]
  refine wp_mono (trimSnapshots_len hp₂) ?_ fun _ _ hf => h₂.fails hf
  rintro _ s₃ hk₃
  have h₃ := h₂.kept hk₃
  -- the geometry the requests are held against
  rw [wp_bind]
  refine wp_mono (query_spec _) ?_ fun _ _ hf => h₃.quietFails hf
  rintro nCtxSeq s₄ ⟨-, hq₄⟩
  have h₄ := h₃.quiet hq₄
  rw [wp_bind]
  refine wp_mono (query_spec _) ?_ fun _ _ hf => h₄.quietFails hf
  rintro vocab s₅ ⟨-, hq₅⟩
  have h₅ := h₄.quiet hq₅
  rw [wp_bind]
  refine wp_mono memory_spec ?_ fun _ _ hf => h₅.quietFails hf
  rintro memory s₆ ⟨rfl, hq₆⟩
  have h₆ := h₅.quiet hq₆
  have hn : ({ s₆ with nSlots := w.nSlots } : Scheduler) = s₆ := by
    obtain ⟨P₆, hp₆⟩ := h₆.inv.pool
    rw [← hp₆.nSlots]
  dsimp only
  rw [wp_bind, wp_modify, hn, wp_bind, wp_get, wp_bind]
  refine wp_mono (h₆.refuse_spec _) ?_ fun _ _ hf => hf
  rintro queue s₇ ⟨h₇, hqueue⟩
  have hctx : ∀ q ∈ queue, q.request.prompt.length < nCtxSeq := by
    intro q hq
    rw [hqueue, mem_filter, isNone_iff_eq_none, map_eq_none_iff] at hq
    exact inContext_of_possible hq.2
  rw [wp_bind, wp_modify, wp_ite]
  refine ⟨fun _ => h₇, fun _ => ?_⟩
  rw [wp_bind, wp_get, wp_bind]
  refine wp_mono (h₇.refuse_spec _) ?_ fun _ _ hf => hf
  rintro queue' s₈ ⟨h₈, hqueue'⟩
  have hctx' : ∀ q ∈ queue', q.request.prompt.length < nCtxSeq := by
    intro q hq
    rw [hqueue', mem_filter] at hq
    exact hctx q hq.1
  rw [wp_bind, wp_modify, wp_ite]
  refine ⟨fun _ => h₈, fun _ => ?_⟩
  rw [wp_bind, wp_get]
  exact admitTarget_spec h₈.inv h₈.settled h₈.peopled h₈.empty hctx' _

end Retrograd.Infer
