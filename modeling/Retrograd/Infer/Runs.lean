import Retrograd.Infer.Iterate

/-!
# Runs of a scheduler

Every operation of a scheduler's caller keeps the scheduler **stable**, whether it succeeds or
fails, and ends without a panic. So every reachable scheduler is stable, the requests an
admission pass failed with being nobody's any more.
-/

namespace Retrograd.Infer

open Logic List

variable {w : World} {s s' : Scheduler} {lost : List Queued} {P : Labels}

/-! ### Setting the pool up -/

/-- The scheduler after its slots were written, by calls that changed nothing else. -/
def Rewritten (s s' : Scheduler) : Prop :=
  ∃ slots calls, s' = { s with backend := { s.backend with slots, calls } }

theorem Rewritten.trans {s'' : Scheduler} (h : Rewritten s s') (h' : Rewritten s' s'') :
    Rewritten s s'' := by
  obtain ⟨_, _, rfl⟩ := h
  obtain ⟨slots, calls, rfl⟩ := h'
  exact ⟨slots, calls, rfl⟩

/-- Emptying every slot of a list, whatever the slots hold. -/
theorem emptySlots_spec {L : List ℕ} (hlt : ∀ σ ∈ L, σ < w.nSlots) :
    wp (L.forM (seqRm w)) (fun _ s' => Rewritten s s' ∧ ∀ σ ∈ L, s'.backend.slots σ = [])
      (fun stop _ => ∃ error, stop = .error error) s := by
  refine wp_mono (wp_forM_list (fun rest s' => (∀ σ ∈ rest, σ ∈ L) ∧ Rewritten s s' ∧
    ∀ σ ∈ L, σ ∈ rest ∨ s'.backend.slots σ = []) ?_
    ⟨fun _ => id, ⟨_, _, rfl⟩, fun σ hσ => .inl hσ⟩) ?_ fun _ _ hf => hf
  · rintro σ rest s₁ ⟨hsub, hr₁, hempty⟩
    refine wp_mono (seqRm_spec (hlt σ (hsub σ mem_cons_self))) ?_ fun _ _ hf => hf.1
    rintro _ s₂ ⟨calls, rfl⟩
    refine ⟨fun τ hτ => hsub τ (mem_cons_of_mem σ hτ), hr₁.trans ⟨_, calls, rfl⟩,
      fun τ hτ => ?_⟩
    show τ ∈ rest ∨ (s₁.withSlot σ [] s₁.backend.nextCell).backend.slots τ = []
    rw [withSlot_slots]
    split_ifs with hτσ
    · exact .inr rfl
    · exact (hempty τ hτ).imp_left fun hmem => (mem_cons.mp hmem).resolve_left hτσ
  · rintro _ s₁ ⟨-, hr₁, hempty⟩
    exact ⟨hr₁, fun σ hσ => (hempty σ hσ).resolve_left not_mem_nil⟩

theorem one_le_i32Max : 1 ≤ i32Max := by decide

/-- An initialized scheduler is stable, and its pool has no more slots than request ids. -/
theorem initializePool_spec {b : Backend} (hb : b.Valid) (options : SchedulerOptions) :
    wp (initializePool w) (fun _ s' => Stable w [] s' ∧ s'.inHand = [] ∧ w.nSlots ≤ i32Max)
      (fun stop _ => ∃ error, stop = .error error) (.new b options) := by
  unfold initializePool
  rw [wp_bind]
  refine wp_mono memory_spec ?_ fun _ _ hf => hf.1
  rintro memory s₁ ⟨rfl, hq₁⟩
  rw [wp_ite]
  refine ⟨fun _ => ⟨_, rfl⟩, fun hle => ?_⟩
  rw [wp_bind, wp_modify, wp_bind]
  refine wp_mono (emptySlots_spec fun σ hσ => mem_range.mp hσ) ?_ fun _ _ hf => hf
  rintro _ s₂ ⟨hr₂, hempty₂⟩
  rw [wp_bind]
  refine wp_mono backendAdapter_spec ?_ fun _ _ hf => hf.1
  rintro active s₃ ⟨rfl, hq₃⟩
  rw [wp_modify]
  obtain ⟨calls₁, rfl⟩ := hq₁
  obtain ⟨slots, calls₂, rfl⟩ := hr₂
  obtain ⟨calls₃, rfl⟩ := hq₃
  have hpool : Pool w [] PrefixTree.emptyLabels { Scheduler.new b options with
      backend := { b with slots, calls := calls₃ }
      nSlots := w.nSlots
      activeAdapter := b.activeAdapter } := {
    stores := PrefixTree.stores_new
    nSlots := rfl
    slot_lt := fun i σ hi => by cases hi
    slot_inj := fun i j σ hi => by cases hi
    slot_free := fun i σ hi => by cases hi
    key_le := fun k hk => by cases hk
    rows := {
      next_pos := hb.next_pos
      lt_next := hb.lt_next
      names := fun name id hid => by cases hid
      inj := fun name name' id hid => by cases hid
      retiring := fun id hid => by cases hid
      nodup := nodup_nil
      live := fun group hg => by cases hg
      live_ne_base := fun group hg => by cases hg }
    content := fun _ i ns p σ _ hi => by cases hi
    saved := fun _ i ns p snap _ hi => by cases hi
    empty := fun _ σ hσ _ _ => hempty₂ σ (mem_range.mpr hσ) }
  refine ⟨⟨⟨⟨_, hpool⟩, ?_, ledger_nil, fun q hq => (not_mem_nil hq).elim⟩,
    settled_of_idle rfl, peopled_of_idle rfl⟩, rfl, Nat.not_lt.mp hle⟩
  exact {
    slots_nodup := nodup_nil
    slots_lt := fun σ hσ => by cases hσ
    ids_nodup := nodup_nil
    ids_range := fun id hid => by cases hid
    next_range := ⟨Nat.one_pos, one_le_i32Max⟩
    next_free := not_mem_nil
    shape := fun group hg => by cases hg
    content := fun _ group hg => by cases hg }

/-! ### Operations -/

/-- Programs around the tree keep a scheduler stable. -/
theorem Stable.frame (h : Stable w lost s) (hf : Frame s.liveSlots s s')
    (hp : Pool w s.liveSlots P s') : Stable w lost s' := by
  refine ⟨?_, h.settled.frame hf, h.peopled.congr hf.live⟩
  rw [hf.queue, hf.inHand]
  exact h.inv.frame hf hp

theorem Stable.kept (h : Stable w lost s) (hk : Kept w s.liveSlots P s s') : Stable w lost s' := by
  obtain ⟨P', hp, hu, -⟩ := hk
  exact h.frame hu.toFrame hp

/-- Operations on the adapters keep a scheduler stable. -/
theorem Stable.renamed (h : Stable w lost s) (hr : RenamedTo w s.liveSlots s s') :
    Stable w lost s' := by
  obtain ⟨P', hp, hu⟩ := hr
  have hf := hu.toFrame
  obtain ⟨s₁, hs₁⟩ : ∃ s₁ : Scheduler, s₁ = { s with
    rowAdapters := s'.rowAdapters, unloadedAdapters := s'.unloadedAdapters } := ⟨_, rfl⟩
  rw [← hs₁] at hf
  have hslots : s₁.liveSlots = s.liveSlots := by rw [hs₁]; rfl
  have hlive₁ : Live w s₁ := by
    rw [hs₁]
    exact { h.inv.live with }
  have hledger₁ : Ledger (s.queue ++ s.inHand ++ lost) s₁.keys s₁.streams s₁.nextStream := by
    rw [hs₁]
    exact h.inv.ledger
  refine ⟨?_, ?_, ?_⟩
  · rw [hf.queue, hf.inHand, hs₁]
    rw [← hslots] at hf hp
    exact Inv.of_frame hlive₁ hledger₁ h.inv.valid hf hp
  · refine Settled.kept (s := s) h.settled (hf.live.trans (by rw [hs₁])) fun σ hσ => ?_
    rw [hf.kept σ hσ, hs₁]
  · exact h.peopled.congr (hf.live.trans (by rw [hs₁]))

/-- The flags of one stream change: a request that is cancelled is lost. -/
theorem Stable.flags {id : ℕ} {st : Stream} (h : Stable w lost s)
    (hsent : st.sent = (s.streams id).sent)
    (hcompletions : st.completions = (s.streams id).completions)
    (hcapacity : st.capacity = (s.streams id).capacity)
    (hlost : (s.streams id).lost → st.lost) (hcancelled : st.cancelled = true → st.lost) :
    Stable w lost (s.withStream id st s.reads) :=
  ⟨h.inv.withStream (h.inv.ledger.flags hsent hcompletions hcapacity hlost hcancelled)
    h.inv.valid, h.settled.kept rfl fun _ _ => rfl, h.peopled⟩

/-- How an operation that is not a pump ends: stable, with the same requests in hand. -/
def Ends (w : World) (lost : List Queued) (s s' : Scheduler) : Prop :=
  Stable w lost s' ∧ s'.inHand = s.inHand

theorem submit_spec (h : Stable w lost s) (request : Request) :
    wp (submit request) (fun _ s' => Ends w lost s s')
      (fun stop s' => (∃ error, stop = .error error) ∧ Ends w lost s s') s := by
  unfold submit
  cases hvalid : request.validate with
  | error error => exact ⟨⟨error, rfl⟩, h, rfl⟩
  | ok _ =>
    dsimp only
    rw [wp_bind, wp_get, wp_ite]
    refine ⟨fun _ => ⟨⟨_, rfl⟩, h, rfl⟩, fun _ => ?_⟩
    rw [wp_bind, wp_set, wp_pure]
    obtain ⟨capacity, hcapacity⟩ : ∃ capacity,
      capacity = max s.options.eventCapacity (request.n + 2) := ⟨_, rfl⟩
    rw [← hcapacity]
    have hledger : Ledger (s.queue ++ s.inHand ++ lost ++ [⟨request, s.nextStream⟩]) s.keys
        (Function.update s.streams s.nextStream (.new capacity request.n)) (s.nextStream + 1) :=
      h.inv.ledger.submit (by omega)
    obtain ⟨P, hp⟩ := h.inv.pool
    refine ⟨⟨?_, h.settled.kept rfl fun _ _ => rfl, h.peopled⟩, rfl⟩
    have hperm : (s.queue ++ [(⟨request, s.nextStream⟩ : Queued)] ++ s.inHand ++ lost).Perm
        (s.queue ++ s.inHand ++ lost ++ [⟨request, s.nextStream⟩]) := by
      simp only [append_assoc]
      refine Perm.append_left _ ?_
      rw [← append_assoc s.inHand]
      exact perm_append_comm
    refine Inv.perm ?_ hperm
    exact {
      pool := ⟨P, hp.congr rfl rfl rfl rfl rfl rfl (hp.rows.congr rfl rfl rfl rfl rfl)⟩
      live := { h.inv.live with }
      ledger := hledger
      valid := fun q hq => by
        rcases mem_append.mp hq with hq | hq
        · exact h.inv.valid q hq
        · rw [mem_singleton.mp hq]
          exact hvalid }

theorem failQueued_spec {E : Stop → Scheduler → Prop} (h : Stable w lost s) :
    wp failQueued (fun _ s' => Ends w lost s s') E s := by
  unfold failQueued
  rw [wp_bind, wp_get, wp_bind]
  have hinv := h.inv
  rw [append_assoc] at hinv
  refine wp_mono (refuseAll_spec .cancelled s.queue hinv) ?_ fun _ _ hf => hf
  rintro _ s₁ ⟨h₁, streams, rfl⟩
  rw [wp_modify]
  exact ⟨⟨h₁.withQueue [] s.inHand, h.settled.kept rfl fun _ _ => rfl, h.peopled⟩, rfl⟩

theorem lendSlot_spec (h : Stable w lost s) (cells : ℕ) :
    wp (lendSlot w cells) (fun _ s' => Ends w lost s s')
      (fun stop s' => (∃ error, stop = .error error) ∧ Ends w lost s s') s := by
  unfold lendSlot
  rw [wp_bind, wp_get, wp_ite]
  refine ⟨fun _ => ⟨⟨_, rfl⟩, h, rfl⟩, fun _ => ?_⟩
  obtain ⟨P, hp⟩ := h.inv.pool
  refine wp_mono (lendFrom_spec _ hp (Nat.lt_succ_self _)) ?_ ?_
  · rintro _ s₁ hk
    exact ⟨h.kept hk, hk.choose_spec.2.1.inHand⟩
  · rintro stop s₁ ⟨herror, -, hk⟩
    exact ⟨herror, h.kept hk, hk.choose_spec.2.1.inHand⟩

/-- Every operation but a pump ends stable, with the same requests in hand. -/
theorem runOp_spec (h : Stable w lost s) {op : Op} (hop : op ≠ .pump) :
    wp (runOp w op) (fun _ s' => Ends w lost s s')
      (fun stop s' => (∃ error, stop = .error error) ∧ Ends w lost s s') s := by
  obtain ⟨P, hp⟩ := h.inv.pool
  have hrenamed : ∀ {s'}, RenamedTo w s.liveSlots s s' → Ends w lost s s' := fun hr =>
    ⟨h.renamed hr, hr.choose_spec.2.inHand⟩
  have hkept : ∀ {s'}, Kept w s.liveSlots P s s' → Ends w lost s s' := fun hk =>
    ⟨h.kept hk, hk.choose_spec.2.1.inHand⟩
  cases op with
  | pump => exact absurd rfl hop
  | submit request =>
    rw [runOp, wp_bind]
    exact wp_mono (submit_spec h request) (fun _ _ he => he) fun _ _ hf => hf
  | cancel id =>
    refine ⟨h.flags rfl rfl rfl (fun _ => .inl rfl) (fun _ => .inl rfl), rfl⟩
  | read id n =>
    exact ⟨h.flags rfl rfl rfl (fun hl => hl) (fun hc => h.inv.ledger.cancelled id hc), rfl⟩
  | pin tokens =>
    rw [runOp, wp_bind]
    exact wp_mono (pinPrefix_spec hp tokens) (fun _ _ hk => hkept hk) fun _ _ hf =>
      ⟨hf.1, hkept hf.2⟩
  | unpin id =>
    rw [runOp, wp_bind]
    refine wp_mono (unpin_spec hp id) ?_ fun _ _ hf => ⟨hf.1, hkept hf.2.2⟩
    rintro _ s₁ ⟨hp₁, hu₁, -⟩
    exact ⟨h.frame hu₁.toFrame hp₁, hu₁.inHand⟩
  | loadAdapter name =>
    exact wp_mono (loadAdapter_spec hp name) (fun _ _ hr => hrenamed hr) fun _ _ hf =>
      ⟨hf.1, hrenamed hf.2⟩
  | unloadAdapter name =>
    exact wp_mono (unloadAdapter_spec hp name) (fun _ _ hr => hrenamed hr) fun _ _ hf =>
      ⟨hf.1, hrenamed hf.2⟩
  | lendSlot cells =>
    rw [runOp, wp_bind]
    exact wp_mono (lendSlot_spec h cells) (fun _ _ he => he) fun _ _ hf => hf
  | failQueued => exact failQueued_spec h

/-! ### Reachable schedulers -/

/-- An operation of a stable scheduler leaves one, and never ends in a panic. -/
theorem op_stable (h : Stable w lost s) (op : Op) :
    wp (runOp w op) (fun _ s' => ∃ lost', Stable w lost' s')
      (fun stop s' => (stop = .noFreeId ∧ i32Max ≤ w.nSlots) ∨
        ((∃ error, stop = .error error) ∧ ∃ lost', Stable w lost' s')) s := by
  by_cases hop : op = .pump
  · subst hop
    rw [runOp, wp_bind]
    refine wp_mono (pump_spec h) (fun _ s₁ h₁ => ⟨_, h₁.1⟩) ?_
    rintro stop s₁ (hfull | ⟨herror, -, lost', h₁, -⟩)
    · exact .inl hfull
    · exact .inr ⟨herror, lost', h₁⟩
  · exact wp_mono (runOp_spec h hop) (fun _ s₁ he => ⟨lost, he.1⟩) fun _ s₁ hf =>
      .inr ⟨hf.1, lost, hf.2.1⟩

/-- The state an operation leaves is the one its program reached. -/
theorem Op.of_next {op : Op} {Q : Scheduler → Prop} (hnext : op.next w s = some s')
    (hq : wp (runOp w op) (fun _ s' => Q s')
      (fun stop s' => (∃ error, stop = .error error) → Q s') s) : Q s' := by
  unfold Op.next at hnext
  split at hnext
  · next hrun =>
    cases hnext
    exact wp_of_ok hq hrun
  · next hrun =>
    cases hnext
    exact wp_of_error hq hrun ⟨_, rfl⟩
  · cases hnext

/-- **Every reachable scheduler is stable.** -/
theorem Reachable.stable (h : Reachable w s) :
    (∃ lost, Stable w lost s) ∧ w.nSlots ≤ i32Max := by
  induction h with
  | init hb hinit =>
    obtain ⟨hs, -, hle⟩ := wp_of_ok (initializePool_spec hb _) hinit
    exact ⟨⟨[], hs⟩, hle⟩
  | step op _ hnext ih =>
    obtain ⟨⟨lost, hs⟩, hle⟩ := ih
    refine ⟨Op.of_next (Q := fun s' => ∃ lost', Stable w lost' s') hnext ?_, hle⟩
    refine wp_mono (op_stable hs op) (fun _ _ h' => h') ?_
    rintro stop s₁ (⟨rfl, -⟩ | ⟨-, h'⟩) ⟨error, herror⟩
    · cases herror
    · exact h'

end Retrograd.Infer
