import Retrograd.Infer.Adapters
import Retrograd.Infer.Scheduler
import Mathlib.Data.Finset.Card

/-!
# Eviction and cache hits

Room is made by giving up dormant nodes: the least recently used unpinned one is swapped to a
host snapshot or forgotten, and its slot emptied. A **cache hit** reads a node the other way: its
slot, or its snapshot, is copied into an empty slot that somebody holds. A finished sequence
closes the circle by handing its slot over to the tree.
-/

namespace Retrograd.Infer

open Logic List Option Function

variable {w : World} {H : List ℕ} {P P' : Labels} {s s' : Scheduler}

/-! ### Counting dormant slots -/

theorem Owners.residentSlots_nodup (h : Owners w H P s) : s.kv.residentSlots.Nodup := by
  refine Nodup.filterMap (fun i j σ hi hj => ?_) nodup_range
  exact h.slot_inj i j σ hi hj

/-- Gaining no slot leaves no more dormant slots. -/
theorem residentSlotCount_le (h : Owners w H P s) {H' : List ℕ} (h' : Owners w H' P' s')
    (hsub : ∀ i τ, (s'.kv.nodes i).slot = some τ → (s.kv.nodes i).slot = some τ) :
    s'.kv.residentSlotCount ≤ s.kv.residentSlotCount := by
  refine (subperm_of_subset h'.residentSlots_nodup fun τ hτ => ?_).length_le
  obtain ⟨i, hi⟩ := (PrefixTree.mem_residentSlots h'.stores).mp hτ
  exact (PrefixTree.mem_residentSlots h.stores).mpr ⟨i, hsub i τ hi⟩

/-- Losing a slot, and gaining none, leaves fewer dormant slots. -/
theorem residentSlotCount_lt {node σ : ℕ} (h : Owners w H P s) (h' : Owners w H P' s')
    (hsub : ∀ i τ, (s'.kv.nodes i).slot = some τ → (s.kv.nodes i).slot = some τ)
    (hnode : (s.kv.nodes node).slot = some σ) (hlost : (s'.kv.nodes node).slot = none) :
    s'.kv.residentSlotCount < s.kv.residentSlotCount := by
  have hσ : σ ∉ s'.kv.residentSlots := fun hmem => by
    obtain ⟨i, hi⟩ := (PrefixTree.mem_residentSlots h'.stores).mp hmem
    rw [h.slot_inj i node σ (hsub i σ hi) hnode, hlost] at hi
    cases hi
  have hnodup : (σ :: s'.kv.residentSlots).Nodup :=
    nodup_cons.mpr ⟨hσ, h'.residentSlots_nodup⟩
  refine (subperm_of_subset hnodup fun τ hτ => ?_).length_le
  rw [PrefixTree.mem_residentSlots h.stores]
  rcases mem_cons.mp hτ with rfl | hτ
  · exact ⟨node, hnode⟩
  · obtain ⟨i, hi⟩ := (PrefixTree.mem_residentSlots h'.stores).mp hτ
    exact ⟨i, hsub i τ hi⟩

/-! ### Snapshots -/

variable {ns : Namespace} {p : List Token}

/-- Forgetting a node that owns no slot keeps the pool. -/
theorem remove_swapped (h : Pool w H P s) {node : ℕ} (hi : P node = some (ns, p)) (hp : p ≠ [])
    (hslot : (s.kv.nodes node).slot = none) :
    ∃ kv P', s.kv.remove node = some kv ∧ Pool w H P' { s with kv } ∧
      Upkeep H s { s with kv } ∧ PrefixTree.Extends P' P ∧
      PrefixTree.Dropped s.kv kv node := by
  obtain ⟨kv, P', heq, hs, he, hdrop⟩ := PrefixTree.remove_spec h.stores hi hp
  have hkept : ∀ i σ, (kv.nodes i).slot = some σ → (s.kv.nodes i).slot = some σ := by
    intro i σ hi
    rw [hdrop.slot] at hi
    split at hi
    · cases hi
    · exact hi
  refine ⟨kv, P', heq, ?_, Upkeep.forget h hs he hkept, he, hdrop⟩
  refine h.forget (L := []) hs he (fun i σ hi => ⟨hkept i σ hi, not_mem_nil⟩)
    (fun i σ hiσ => .inl ?_) fun i snap hi => ?_
  · rw [hdrop.slot, if_neg, hiσ]
    rintro rfl
    simp [hslot] at hiσ
  · rw [hdrop.snapshot] at hi
    split at hi
    · cases hi
    · exact hi

variable {t : PrefixTree}

/-- The least recently used node is unpinned and eligible. -/
theorem PrefixTree.lru_spec {eligible : Node → Bool} {i : ℕ} (h : t.lru eligible = some i) :
    eligible (t.nodes i) = true ∧ (t.nodes i).pins = 0 := by
  have hmem := argmin_mem h
  rw [mem_filter, Bool.and_eq_true, beq_iff_eq] at hmem
  exact ⟨hmem.2.2, hmem.2.1⟩

/-- How many nodes below `n` keep a snapshot. -/
def snapshotCount (t : PrefixTree) (n : ℕ) : ℕ :=
  ((Finset.range n).filter fun i => (t.nodes i).snapshot.isSome).card

theorem snapshotCount_lt {t t' : PrefixTree} {node n : ℕ} (hdrop : PrefixTree.Dropped t t' node)
    (hn : node < n) (hsome : (t.nodes node).snapshot.isSome) :
    snapshotCount t' n < snapshotCount t n := by
  refine Finset.card_lt_card ⟨fun i hi => ?_, fun hsub => ?_⟩
  · rw [Finset.mem_filter, hdrop.snapshot] at hi
    rw [Finset.mem_filter]
    refine ⟨hi.1, ?_⟩
    by_cases hnode : i = node
    · simp [hnode] at hi
    · simpa [hnode] using hi.2
  · have hmem := hsub (Finset.mem_filter.mpr ⟨Finset.mem_range.mpr hn, hsome⟩)
    simp [hdrop.snapshot] at hmem

/-- Trimming ends: every round forgets a snapshot. -/
theorem trimSnapshots_spec (n fuel : ℕ) : ∀ {P : Labels} {s : Scheduler}, Pool w H P s →
    (∀ i, (s.kv.nodes i).snapshot.isSome → i < n) → snapshotCount s.kv n < fuel →
    wp (trimSnapshots fuel) (fun _ s' => Kept w H P s s') (Fails w H P s) s := by
  induction fuel with
  | zero =>
    intro P s _ _ hfuel
    omega
  | succ fuel ih =>
    intro P s h hn hfuel
    unfold trimSnapshots
    rw [wp_bind, wp_get, wp_ite]
    refine ⟨fun _ => ?_, fun _ => Kept.refl h⟩
    cases hnode : s.kv.snapshotEvictionCandidate with
    | none => exact Kept.refl h
    | some node =>
      have heligible := (PrefixTree.lru_spec hnode).1
      rw [Bool.and_eq_true, isNone_iff_eq_none] at heligible
      obtain ⟨snap, hsnap⟩ := isSome_iff_exists.mp heligible.2
      obtain ⟨ns, p, hi, hp⟩ := h.stores.ne_none_of_snapshot hsnap
      obtain ⟨kv, P₁, heq, h₁, hu₁, he₁, hdrop⟩ := remove_swapped h hi hp heligible.1
      rw [wp_bind]
      refine wp_onTree (by rw [heq]; rfl) ?_
      rw [wp_bind, wp_modify]
      have h₂ : Pool w H P₁ { s with
          kv, kvStats := { s.kvStats with evictions := s.kvStats.evictions + 1 } } := h₁.congr
        rfl rfl rfl rfl rfl rfl (h₁.rows.congr rfl rfl rfl rfl rfl)
      have hu₂ : Upkeep H s { s with
          kv, kvStats := { s.kvStats with evictions := s.kvStats.evictions + 1 } } :=
        { hu₁ with }
      have hlt := snapshotCount_lt hdrop (hn node heligible.2) heligible.2
      refine wp_mono (ih h₂ (fun i hi => hn i ?_) ?_) ?_ fun _ _ hf => hf.trans hu₂ he₁
      · have hi : (kv.nodes i).snapshot.isSome := hi
        rw [hdrop.snapshot] at hi
        split at hi
        · cases hi
        · exact hi
      · show snapshotCount kv n < fuel
        omega
      · exact fun _ s' hk => hk.trans hu₂ he₁

/-- The fuel that `admitPass` gives is enough. -/
theorem trimSnapshots_len (h : Pool w H P s) :
    wp (trimSnapshots (s.kv.len + 1)) (fun _ s' => Kept w H P s s') (Fails w H P s) s := by
  refine trimSnapshots_spec s.kv.len _ h (fun i hi => ?_) ?_
  · obtain ⟨snap, hsnap⟩ := isSome_iff_exists.mp hi
    obtain ⟨ns, p, hi, -⟩ := h.stores.ne_none_of_snapshot hsnap
    exact h.stores.lt_len hi
  · have := Finset.card_filter_le (Finset.range s.kv.len)
      fun i => (s.kv.nodes i).snapshot.isSome
    rw [Finset.card_range] at this
    exact Nat.lt_succ_of_le this

/-! ### Evicting a node -/

theorem PrefixTree.attachSnapshot_spec (h : t.Stores P) {node : ℕ} (hi : P node = some (ns, p))
    (hp : p ≠ []) (snapshot : Snapshot) : (t.attachSnapshot node snapshot).Stores P ∧
      (∀ i, ((t.attachSnapshot node snapshot).nodes i).slot = (t.nodes i).slot) ∧
      ∀ i, ((t.attachSnapshot node snapshot).nodes i).snapshot
        = if i = node then some snapshot else (t.nodes i).snapshot := by
  have hnodes : ∀ i, (t.attachSnapshot node snapshot).nodes i
      = (t.setNode node fun n => { n with snapshot := some snapshot }).nodes i := fun _ => rfl
  refine ⟨?_, fun i => ?_, fun i => ?_⟩
  · exact (h.setPayload (f := fun n => { n with snapshot := some snapshot }) hi hp
      fun _ => ⟨rfl, rfl, rfl, rfl, rfl⟩).congr rfl rfl rfl rfl rfl
        (fun _ => ⟨rfl, rfl, rfl, rfl, rfl⟩) fun _ _ => rfl
  all_goals
    rw [hnodes, setNode_nodes]
    by_cases hin : i = node <;> simp [hin]

/-- Saving the contents of a dormant slot beside it keeps the pool. -/
theorem Pool.attachSnapshot (h : Pool w H P s) {node slot : ℕ} {snapshot : Snapshot}
    (hslot : (s.kv.nodes node).slot = some slot)
    (hsnap : snapshot.contents = contents (s.backend.slots slot)) :
    Pool w H P { s with kv := s.kv.attachSnapshot node snapshot } := by
  obtain ⟨ns, p, hi, hp⟩ := h.stores.ne_none_of_slot hslot
  obtain ⟨hs, hslots, hsnaps⟩ := PrefixTree.attachSnapshot_spec h.stores hi hp snapshot
  exact { h with
    stores := hs
    slot_lt := fun i σ hi => h.slot_lt i σ (hslots i ▸ hi)
    slot_inj := fun i j σ hi hj => h.slot_inj i j σ (hslots i ▸ hi) (hslots j ▸ hj)
    slot_free := fun i σ hi => h.slot_free i σ (hslots i ▸ hi)
    rows := h.rows.congr rfl rfl rfl rfl rfl
    empty := fun hw σ hσ hn hno => h.empty hw σ hσ hn fun i hi => hno i (by rw [hslots, hi])
    content := fun hw i ns p σ hi hσ => h.content hw i ns p σ hi (hslots i ▸ hσ)
    saved := fun hw i ns' p' snap hi' hsn => by
      rw [hsnaps] at hsn
      split at hsn
      · next hin =>
        subst hin
        cases hsn
        rw [hsnap]
        exact h.content hw i ns' p' slot hi' hslot
      · exact h.saved hw i ns' p' snap hi' hsn }

/-- What swapping a node out keeps: the pool, every slot and every retention. -/
def Swapped (w : World) (H : List ℕ) (P : Labels) (s s' : Scheduler) : Prop :=
  Pool w H P s' ∧ Upkeep H s s' ∧ (∀ i, (s'.kv.nodes i).slot = (s.kv.nodes i).slot) ∧
    s'.retained = s.retained

theorem Swapped.quiet (h : Pool w H P s) (hq : Quiet s s') : Swapped w H P s s' := by
  refine ⟨h.quiet hq, Upkeep.quiet hq, ?_⟩
  obtain ⟨calls, rfl⟩ := hq
  exact ⟨fun _ => rfl, rfl⟩

/-- What is saved of a slot, `len` bytes of it at most. -/
private theorem saveSlot_spec (h : Pool w H P s) {node slot : ℕ}
    (hslot : (s.kv.nodes node).slot = some slot) (len : ℕ) {s₁ : Scheduler} (hq₁ : Quiet s s₁) :
    wp (do
    if 0 < len && s.kv.snapshotBytes + len ≤ s.options.maxSnapshotBytes then
      match ← attempt (invoke w (Backend.seqSaveInto w slot)) with
      | some snapshot => modify fun s => { s with
          kv := s.kv.attachSnapshot node snapshot
          kvStats := { s.kvStats with swaps := s.kvStats.swaps + 1 } }
      | none => pure ()) (fun _ s' => Swapped w H P s s') (fun _ _ => False) s₁ := by
  have hlt := h.slot_lt node slot hslot
  rw [wp_ite]
  refine ⟨fun _ => ?_, fun _ => Swapped.quiet h hq₁⟩
  rw [wp_bind]
  refine wp_mono (seqSaveInto_spec hlt) ?_ fun _ _ hf => hf
  rintro snapshot s₂ ⟨hq₂, hsnap⟩
  cases snapshot with
  | none => exact Swapped.quiet h (hq₁.trans hq₂)
  | some snapshot =>
    have hsnap₂ : snapshot.contents = contents (s.backend.slots slot) := by
      rw [hsnap snapshot rfl]
      obtain ⟨calls, rfl⟩ := hq₁
      rfl
    obtain ⟨calls, rfl⟩ := hq₁.trans hq₂
    have h₃ := h.attachSnapshot hslot hsnap₂
    obtain ⟨ns, p, hi, hp⟩ := h.stores.ne_none_of_slot hslot
    obtain ⟨hs, hslots, -⟩ := PrefixTree.attachSnapshot_spec h.stores hi hp snapshot
    have hu₃ := Upkeep.forget h hs (PrefixTree.Extends.refl P) fun i σ hi => hslots i ▸ hi
    exact ⟨h₃.congr rfl rfl rfl rfl rfl rfl (h₃.rows.congr rfl rfl rfl rfl rfl),
      { hu₃ with }, hslots, rfl⟩

/-- Swapping a node out never fails, and leaves the node's slot where it is. -/
theorem swapOut_spec (h : Pool w H P s) {node slot : ℕ}
    (hslot : (s.kv.nodes node).slot = some slot) :
    wp (swapOut w node slot) (fun _ s' => Swapped w H P s s') (fun _ _ => False) s := by
  have hlt := h.slot_lt node slot hslot
  unfold swapOut
  rw [wp_bind, wp_get, wp_ite]
  refine ⟨fun _ => ?_, fun _ => Swapped.quiet h (Quiet.refl s)⟩
  rw [wp_bind]
  refine wp_attempt_call (wp_mono (seqSaveLen_spec hlt) ?_ fun _ _ hf => hf) ?_
  · exact fun len s₁ hq₁ => saveSlot_spec h hslot len hq₁
  · exact fun s₁ hq₁ => saveSlot_spec h hslot 0 hq₁

/-- Taking the slot away from its node. -/
theorem Pool.detachSlot (h : Pool w H P s) {node slot : ℕ}
    (hslot : (s.kv.nodes node).slot = some slot) :
    Pool w (slot :: H) P { s with kv := s.kv.detachSlot node } ∧
      Upkeep H s { s with kv := s.kv.detachSlot node } := by
  obtain ⟨ns, p, hi, hp⟩ := h.stores.ne_none_of_slot hslot
  have hs : (s.kv.detachSlot node).Stores P :=
    h.stores.setPayload (f := fun n => { n with slot := none }) hi hp
      fun _ => ⟨rfl, rfl, rfl, rfl, rfl⟩
  have hslots : ∀ i, ((s.kv.detachSlot node).nodes i).slot
      = if i = node then none else (s.kv.nodes i).slot := by
    intro i
    rw [PrefixTree.detachSlot, PrefixTree.setNode_nodes]
    by_cases hin : i = node <;> simp [hin]
  have hkept : ∀ i σ, ((s.kv.detachSlot node).nodes i).slot = some σ →
      (s.kv.nodes i).slot = some σ ∧ σ ∉ [slot] := by
    intro i σ hiσ
    rw [hslots] at hiσ
    split at hiσ
    · cases hiσ
    · next hne =>
      refine ⟨hiσ, fun hσ => hne ?_⟩
      rw [mem_singleton.mp hσ] at hiσ
      exact h.slot_inj i node slot hiσ hslot
  refine ⟨h.forget (L := [slot]) hs (PrefixTree.Extends.refl P) hkept (fun i σ hiσ => ?_)
    fun i snap hsn => ?_, Upkeep.forget h hs (PrefixTree.Extends.refl P) fun i σ hiσ =>
      (hkept i σ hiσ).1⟩
  · by_cases hin : i = node
    · rw [hin, hslot] at hiσ
      exact .inr (by simpa using hiσ.symm)
    · exact .inl (by rw [hslots, if_neg hin, hiσ])
  · rw [PrefixTree.detachSlot, PrefixTree.setNode_nodes] at hsn
    by_cases hin : i = node <;> simpa [hin] using hsn

/-- What an eviction leaves: fewer dormant slots, or nothing was evictable. -/
structure Evicted (w : World) (H : List ℕ) (P : Labels) (s : Scheduler) (evicted : Bool)
    (s' : Scheduler) : Prop where
  kept : Kept w H P s s'
  retained : s'.retained = s.retained
  fewer : evicted = true → s'.kv.residentSlotCount < s.kv.residentSlotCount
  none : evicted = false → s' = s ∧ s.kv.evictionCandidate = none

theorem evictOneLru_spec (h : Pool w H P s) :
    wp (evictOneLru w) (Evicted w H P s) (Fails w H P s) s := by
  unfold evictOneLru
  rw [wp_bind, wp_get]
  cases hnode : s.kv.evictionCandidate with
  | none => exact ⟨Kept.refl h, rfl, by simp, fun _ => ⟨rfl, hnode⟩⟩
  | some node =>
    obtain ⟨slot, hslot⟩ := isSome_iff_exists.mp (PrefixTree.lru_spec hnode).1
    have hlt := h.slot_lt node slot hslot
    have hfree : slot ∉ H := h.slot_free node slot hslot
    dsimp only
    rw [wp_bind, wp_get, PrefixTree.slot, hslot]
    dsimp only
    rw [wp_bind]
    refine wp_mono (swapOut_spec h hslot) ?_ fun _ _ hf => hf.elim
    rintro _ s₁ ⟨h₁, hu₁, hslots₁, hret₁⟩
    have hslot₁ : (s₁.kv.nodes node).slot = some slot := by rw [hslots₁, hslot]
    obtain ⟨hdet, hudet⟩ := h₁.detachSlot hslot₁
    rw [wp_bind]
    refine wp_mono (seqRm_spec hlt) ?_ fun _ _ hf =>
      (hf.fails h₁).trans hu₁ (PrefixTree.Extends.refl P)
    rintro _ s₂ ⟨calls, rfl⟩
    rw [wp_bind, wp_modify]
    -- the slot is emptied before the node lets it go
    obtain ⟨s₃, hs₃⟩ : ∃ s₃ : Scheduler, s₃ = { s₁ with
        kv := s₁.kv.detachSlot node
        backend := { s₁.backend.setSlot slot [] with calls } } := ⟨_, rfl⟩
    have h₃ : Pool w H P s₃ := by
      refine Pool.release (L := [slot]) ?_ fun _ σ hσ _ => ?_
      · rw [hs₃]
        exact (hdet.withSlot mem_cons_self [] s₁.backend.nextCell).quiet ⟨calls, rfl⟩
      · rw [mem_singleton.mp hσ, hs₃]
        exact update_self ..
    have hu₃ : Upkeep H s s₃ := by
      refine (hu₁.trans hudet).trans ((Upkeep.withSlot_nil hfree s₁.backend.nextCell).trans ?_)
      rw [hs₃]
      exact Upkeep.quiet ⟨calls, rfl⟩
    have hnone₃ : (s₃.kv.nodes node).slot = none := by
      rw [hs₃]
      show ((s₁.kv.detachSlot node).nodes node).slot = none
      rw [PrefixTree.detachSlot, PrefixTree.setNode_nodes, if_pos rfl]
    have hret₃ : s₃.retained = s.retained := by rw [hs₃, ← hret₁]
    have hdone : ∀ {P₄ : Labels} {s₄ : Scheduler}, Pool w H P₄ s₄ → Upkeep H s s₄ →
        PrefixTree.Extends P₄ P → (s₄.kv.nodes node).slot = none →
        s₄.retained = s.retained → Evicted w H P s true { s₄ with
          kvStats := { s₄.kvStats with evictions := s₄.kvStats.evictions + 1 } } := by
      intro P₄ s₄ h₄ hu₄ he₄ hnone₄ hret₄
      refine ⟨Kept.bookkeeping ⟨P₄, h₄, hu₄, he₄⟩ _ _ _ _, hret₄, fun _ => ?_, by simp⟩
      show s₄.kv.residentSlotCount < s.kv.residentSlotCount
      exact residentSlotCount_lt h.toOwners h₄.toOwners (fun i τ hi => (hu₄.resident i τ hi).1)
        hslot hnone₄
    show wp _ _ _ { s₁ with
      kv := s₁.kv.detachSlot node
      backend := { s₁.backend.setSlot slot [] with calls } }
    rw [← hs₃]
    simp only [wp_bind, wp_get, wp_ite, wp_modify, wp_pure]
    refine ⟨fun _ => ?_, fun _ => hdone h₃ hu₃ (PrefixTree.Extends.refl P) hnone₃ hret₃⟩
    obtain ⟨ns, p, hi, hp⟩ := h.stores.ne_none_of_slot hslot
    obtain ⟨kv, P₄, heq, h₄, hu₄, he₄, hdrop⟩ := remove_swapped h₃ hi hp hnone₃
    refine wp_onTree (by rw [heq]; rfl) ?_
    refine hdone h₄ (hu₃.trans hu₄) he₄ ?_ hret₃
    show (kv.nodes node).slot = none
    rw [hdrop.slot, if_pos rfl]

/-! ### Cache hits -/

/-- Where a hit of `hit` tokens of `prompt` comes from. -/
structure CacheHit (w : World) (P : Labels) (ns : Namespace) (prompt : List Token)
    (s : Scheduler) (node hit : ℕ) : Prop where
  pos : 0 < hit
  lt : hit < prompt.length
  path : ∃ q, P node = some (ns, q) ∧ q.take hit = prompt.take hit ∧ hit ≤ q.length
  partial_unified : hit ≠ (s.kv.nodes node).depth → w.kvUnified = true
  swapped : (s.kv.nodes node).slot = none →
    hit = (s.kv.nodes node).depth ∧ (s.kv.nodes node).snapshot.isSome

variable {prompt : List Token}

/-- The hit's node is not a root. -/
theorem CacheHit.ne_nil {node hit : ℕ} (h : CacheHit w P ns prompt s node hit) {q : List Token}
    (hq : P node = some (ns, q)) : q ≠ [] := by
  obtain ⟨q', hq', -, hle⟩ := h.path
  rw [hq] at hq'
  cases hq'
  rintro rfl
  have := h.pos
  simp only [length_nil] at hle
  omega

/-- What the caller's check of a node has checked. -/
theorem usable_spec {partialOk : Bool} {last node hit : ℕ}
    (h : usable w s partialOk last node hit = true) :
    0 < min hit last ∧ (min hit last < s.kv.depth node → partialOk = true) ∧
      (s.kv.slot node = none →
        min hit last = s.kv.depth node ∧ (s.kv.snapshot node).isSome) := by
  simp only [usable] at h
  split at h
  · cases h
  · next hcond =>
    simp only [Bool.or_eq_true, Bool.and_eq_true, decide_eq_true_eq, Bool.not_eq_true',
      not_or, not_and, Bool.not_eq_false] at hcond
    refine ⟨Nat.pos_of_ne_zero hcond.1, hcond.2, fun hslot => ?_⟩
    rw [hslot] at h
    simp only [Bool.and_eq_true, decide_eq_true_eq] at h
    exact ⟨h.2, h.1⟩

/-- The longest usable front of a prompt of two tokens or more is found. -/
private theorem findHit_spec (h : Pool w H P s) (ns : Namespace) (hlen : 2 ≤ prompt.length)
    (hybrid : Bool) {s₂ : Scheduler} (hq₂ : Quiet s s₂) : wp (do
    let partialOk := w.kvUnified && !hybrid
    let last := prompt.length - 1
    let s ← get
    match s.kv.longestPrefix ns prompt partialOk (usable w s partialOk last) with
    | none => throw .outOfFuel
    | some found => pure (found.map fun (node, hit) => (node, min hit last)))
    (fun found s' => Quiet s s' ∧
      ∀ node hit, found = some (node, hit) → CacheHit w P ns prompt s node hit)
    (QuietFails w s) s₂ := by
  have h₂ := h.quiet hq₂
  have hkv : s₂.kv = s.kv := by
    obtain ⟨calls, rfl⟩ := hq₂
    rfl
  simp only [wp_bind, wp_get]
  obtain ⟨found, heq, hfound⟩ := PrefixTree.longestPrefix_spec h₂.stores ns prompt
    (w.kvUnified && !hybrid) (usable w s₂ (w.kvUnified && !hybrid) (prompt.length - 1))
  rw [heq]
  refine ⟨hq₂, fun node hit hmap => ?_⟩
  obtain ⟨⟨node', hit'⟩, hsome, hpair⟩ := map_eq_some_iff.mp hmap
  cases hpair
  have hHit := hfound node' hit' hsome
  have husable := hHit.usable
  obtain ⟨q, hq, htake⟩ := hHit.path
  have hdepth : s₂.kv.depth node' = q.length := h₂.stores.depth_eq node' ns q hq
  have hle : hit' ≤ s₂.kv.depth node' := hHit.le_depth
  rw [hdepth] at hle
  obtain ⟨hpos, hunfinished, hswap⟩ := usable_spec husable
  rw [hkv] at hunfinished hswap hdepth
  refine ⟨hpos, by omega, ⟨q, hq, ?_, by omega⟩, fun hne => ?_, hswap⟩
  rotate_left
  · have hne : min hit' (prompt.length - 1) ≠ s.kv.depth node' := hne
    have hok := hunfinished (by omega)
    rw [Bool.and_eq_true] at hok
    exact hok.1
  · have hmin : min hit' (prompt.length - 1) ≤ hit' := min_le_left ..
    calc q.take (min hit' (prompt.length - 1))
        = (q.take hit').take (min hit' (prompt.length - 1)) := by
          rw [take_take, min_eq_left hmin]
      _ = prompt.take (min hit' (prompt.length - 1)) := by
          rw [htake, take_take, min_eq_left hmin]

/-- The lookup ends, and what it finds can be used. -/
theorem hitCandidate_spec (h : Pool w H P s) (ns : Namespace) (prompt : List Token) :
    wp (hitCandidate w ns prompt) (fun found s' => Quiet s s' ∧
      ∀ node hit, found = some (node, hit) → CacheHit w P ns prompt s node hit)
      (QuietFails w s) s := by
  unfold hitCandidate
  rw [wp_bind, wp_get, wp_ite]
  refine ⟨fun _ => ⟨Quiet.refl s, by simp⟩, fun hlen => ?_⟩
  have hlen : 2 ≤ prompt.length := by
    simp only [Bool.or_eq_true, Bool.not_eq_true', decide_eq_true_eq, not_or] at hlen
    omega
  rw [wp_bind]
  refine wp_mono (query_spec _) ?_ fun _ _ hf => hf
  rintro unified s₁ ⟨rfl, hq₁⟩
  dsimp only
  rw [wp_ite]
  refine ⟨fun _ => ?_, fun _ => findHit_spec h ns hlen true hq₁⟩
  rw [wp_bind]
  refine wp_mono (query_spec _) ?_ fun _ _ hf => hf.trans hq₁
  rintro hybrid s₂ ⟨rfl, hq₂⟩
  exact findHit_spec h ns hlen w.hybrid (hq₁.trans hq₂)

theorem capacity_spec : wp (capacity w) (fun r s' => Quiet s s' ∧
    r = (s.nSlots - (s.liveLen + s.kv.residentSlotCount),
      w.cellsTotal - max (s.backend.cellsUsed w)
        (min ((s.live.map LiveGroup.reserved).sum + s.kv.residentCells) u64Max)))
    (QuietFails w s) s := by
  unfold capacity
  rw [wp_bind]
  refine wp_mono memory_spec ?_ fun _ _ hf => hf
  rintro _ s₁ ⟨rfl, hq₁⟩
  obtain ⟨calls, rfl⟩ := hq₁
  exact ⟨⟨calls, rfl⟩, rfl⟩

/-- Why the front of the queue fits: its members find slots beside the `heldSlots` of a wave, and
its cells, net of a hit, fit beside the `heldCells`. -/
structure Fits (w : World) (P : Labels) (s : Scheduler) (queued : Queued)
    (nCtxSeq heldSlots heldCells members need : ℕ) (node : Option ℕ) : Prop where
  members_eq : members = queued.request.n
  slots : heldSlots + members ≤ s.nSlots - (s.liveLen + s.kv.residentSlotCount)
  cells : ∃ hit : Option (ℕ × ℕ), node = hit.map Prod.fst ∧
    need = reservation queued.request nCtxSeq - (hit.elim 0 fun h => h.2 * members) ∧
    heldCells + need ≤ w.cellsTotal - max (s.backend.cellsUsed w)
      (min ((s.live.map LiveGroup.reserved).sum + s.kv.residentCells) u64Max) ∧
    ∀ node hit', hit = some (node, hit') → CacheHit w P
      (adapterNamespace (rowAdapter s queued.request)) queued.request.prompt s node hit'

/-- What `frontFits` returns. -/
def FrontFits (w : World) (H : List ℕ) (P : Labels) (s : Scheduler)
    (nCtxSeq heldSlots heldCells evictionsLeft : ℕ)
    (r : Option (ℕ × ℕ × Option ℕ) × ℕ) (s' : Scheduler) : Prop :=
  ∃ P', Pool w H P' s' ∧ Upkeep H s s' ∧ PrefixTree.Extends P' P ∧ r.2 ≤ evictionsLeft ∧
    ∀ members need node, r.1 = some (members, need, node) → ∃ queued queue,
      s'.queue = queued :: queue ∧
        Fits w P' s' queued nCtxSeq heldSlots heldCells members need node

theorem FrontFits.trans {nCtxSeq heldSlots heldCells evictionsLeft evictionsLeft' : ℕ}
    {r : Option (ℕ × ℕ × Option ℕ) × ℕ} {s'' : Scheduler} (hu : Upkeep H s s')
    (he : PrefixTree.Extends P' P) (hle : evictionsLeft' ≤ evictionsLeft)
    (h : FrontFits w H P' s' nCtxSeq heldSlots heldCells evictionsLeft' r s'') :
    FrontFits w H P s nCtxSeq heldSlots heldCells evictionsLeft r s'' := by
  obtain ⟨P'', h'', hu', he', hle', hfits⟩ := h
  exact ⟨P'', h'', hu.trans hu', he'.trans he, hle'.trans hle, hfits⟩

/-- Making room for the front ends: every round evicts a node or releases a retention. -/
theorem frontFits_spec {nCtxSeq heldSlots heldCells : ℕ} (fuel : ℕ) :
    ∀ {evictionsLeft : ℕ} {P : Labels} {s : Scheduler}, Pool w H P s →
      frontFuel s evictionsLeft ≤ fuel →
      wp (frontFits w nCtxSeq heldSlots heldCells fuel evictionsLeft)
        (FrontFits w H P s nCtxSeq heldSlots heldCells evictionsLeft) (Fails w H P s) s := by
  induction fuel with
  | zero =>
    intro evictionsLeft P s _ hfuel
    simp [frontFuel] at hfuel
  | succ fuel ih =>
    intro evictionsLeft P s h hfuel
    unfold frontFuel at hfuel
    unfold frontFits
    have hnone : ∀ {P' s'} e, e ≤ evictionsLeft → Pool w H P' s' → Upkeep H s s' →
        PrefixTree.Extends P' P →
        FrontFits w H P s nCtxSeq heldSlots heldCells evictionsLeft (none, e) s' :=
      fun e hle h' hu he => ⟨_, h', hu, he, hle, by simp⟩
    rw [wp_bind, wp_get]
    cases hqueue : s.queue with
    | nil => exact hnone _ le_rfl h (Upkeep.refl H s) (PrefixTree.Extends.refl P)
    | cons queued queue =>
      dsimp only [head?_cons]
      simp only [wp_bind, wp_get]
      refine wp_mono (hitCandidate_spec h _ _) ?_ fun _ _ hf => hf.fails h
      rintro hit s₁ ⟨hq₁, hhit⟩
      have h₁ := h.quiet hq₁
      have hu₁ : Upkeep H s s₁ := Upkeep.quiet hq₁
      refine wp_mono capacity_spec ?_ fun _ _ hf =>
        (hf.fails h₁).trans hu₁ (PrefixTree.Extends.refl P)
      rintro _ s₂ ⟨hq₂, rfl⟩
      have h₂ := h₁.quiet hq₂
      have hq₂ := hq₁.trans hq₂
      have hu₂ : Upkeep H s s₂ := Upkeep.quiet hq₂
      dsimp only
      simp only [wp_ite, wp_bind, wp_pure]
      refine ⟨fun hfit => ?_, fun _ => ⟨fun hzero => ?_, fun hleft => ?_⟩⟩
      · rw [Bool.and_eq_true, decide_eq_true_eq, decide_eq_true_eq] at hfit
        refine ⟨P, h₂, hu₂, PrefixTree.Extends.refl P, le_rfl, fun members need node hr => ?_⟩
        cases hr
        obtain ⟨calls, rfl⟩ := hq₂
        refine ⟨queued, queue, hqueue, rfl, ?_, hit, rfl, rfl, ?_, fun node hit' hsome => ?_⟩
        · obtain ⟨_, rfl⟩ := hq₁
          exact hfit.1
        · obtain ⟨_, rfl⟩ := hq₁
          exact hfit.2
        · exact { hhit node hit' hsome with }
      · exact hnone 0 (Nat.zero_le _) h₂ hu₂ (PrefixTree.Extends.refl P)
      · refine wp_mono (evictOneLru_spec h₂) ?_ fun _ _ hf =>
          hf.trans hu₂ (PrefixTree.Extends.refl P)
        rintro evicted s₃ ⟨⟨P₃, h₃, hu₃, he₃⟩, hret₃, -, -⟩
        have hu₃ := hu₂.trans hu₃
        have hret : s₃.retained = s.retained := by
          rw [hret₃]
          obtain ⟨calls, rfl⟩ := hq₂
          rfl
        refine ⟨fun _ => ?_, fun _ => ?_⟩
        · refine wp_mono (ih h₃ (by rw [frontFuel, hret]; omega)) ?_ fun _ _ hf =>
            hf.trans hu₃ he₃
          exact fun r s₄ hr => hr.trans hu₃ he₃ (Nat.sub_le ..)
        · refine wp_mono (releaseOldestRetained_spec h₃) ?_ fun _ _ hf => hf.trans hu₃ he₃
          rintro released s₄ ⟨h₄, hu₄, -, hlt⟩
          have hu₄ := hu₃.trans hu₄
          refine ⟨fun hreleased => ?_, fun _ => hnone _ le_rfl h₄ hu₄ he₃⟩
          have hlt := hlt hreleased
          rw [hret] at hlt
          refine wp_mono (ih h₄ (by rw [frontFuel]; omega)) ?_ fun _ _ hf => hf.trans hu₄ he₃
          exact fun r s₅ hr => hr.trans hu₄ he₃ le_rfl

theorem PrefixTree.touch_spec (h : t.Stores P) {node : ℕ} (hi : P node = some (ns, p))
    (hp : p ≠ []) : (t.touch node).Stores P ∧ SameSlots t (t.touch node) := by
  have hnodes : ∀ i, (t.touch node).nodes i = (t.setNode node fun n =>
      { n with lastUse := t.clock + 1 }).nodes i := fun _ => rfl
  refine ⟨?_, fun i => ?_, fun i => ?_, rfl⟩
  · exact (h.setPayload (f := fun n => { n with lastUse := t.clock + 1 }) hi hp
      fun _ => ⟨rfl, rfl, rfl, rfl, rfl⟩).congr rfl rfl rfl rfl rfl
        (fun i => by rw [hnodes]; exact ⟨rfl, rfl, rfl, rfl, rfl⟩) fun _ _ => hnodes _
  all_goals
    rw [hnodes, setNode_nodes]
    by_cases hin : i = node <;> simp [hin]

/-- What a hit leaves in the slot it was applied to. -/
structure Applied (w : World) (H : List ℕ) (P : Labels) (s : Scheduler) (ns : Namespace)
    (prompt : List Token) (leaderSlot hit : ℕ) (s' : Scheduler) : Prop where
  pool : Pool w H P s'
  beside : Beside s s'
  active : s'.backend.activeAdapter = s.backend.activeAdapter
  others : ∀ σ, σ ≠ leaderSlot → s'.backend.slots σ = s.backend.slots σ
  resident : ∀ i, (s'.kv.nodes i).slot = (s.kv.nodes i).slot
  lt : hit < prompt.length
  content : w.Reliable → contents (s'.backend.slots leaderSlot)
    = tagged (nsTag s.backend.activeAdapter ns) (prompt.take hit)

/-- A hit is copied into an empty slot that is held. -/
theorem applyCacheHit_spec (h : Pool w H P s) (ns : Namespace) (hprompt : prompt ≠ [])
    {leaderSlot : ℕ} (hheld : leaderSlot ∈ H) (hlt : leaderSlot < w.nSlots)
    (hempty : w.Reliable → s.backend.slots leaderSlot = []) :
    wp (applyCacheHit w ns prompt leaderSlot)
      (fun hit s' => Applied w H P s ns prompt leaderSlot hit s') (QuietFails w s) s := by
  unfold applyCacheHit
  rw [wp_bind]
  refine wp_mono (hitCandidate_spec h ns prompt) ?_ fun _ _ hf => hf
  rintro found s₁ ⟨hq₁, hhit⟩
  have h₁ := h.quiet hq₁
  have hu₁ : Upkeep H s s₁ := Upkeep.quiet hq₁
  obtain ⟨calls₁, rfl⟩ := hq₁
  cases found with
  | none =>
    refine ⟨h₁, hu₁.toBeside, rfl, fun _ _ => rfl, fun _ => rfl, length_pos_of_ne_nil hprompt,
      fun hw => ?_⟩
    rw [hempty hw]
    rfl
  | some found =>
    obtain ⟨node, hit⟩ := found
    have hfound := hhit node hit rfl
    obtain ⟨q, hq, htake, hle⟩ := hfound.path
    have hdepth : (s.kv.nodes node).depth = q.length := h.stores.depth_eq node ns q hq
    have hdone : ∀ (cells : List Cell) (next : ℕ) s₂,
        Quiet (s.withSlot leaderSlot cells next) s₂ →
        (w.Reliable → contents cells
          = tagged (nsTag s.backend.activeAdapter ns) (prompt.take hit)) →
        Applied w H P s ns prompt leaderSlot hit { s₂ with kv := s₂.kv.touch node } := by
      intro cells next s₂ hq₂ hcontents
      have h₂ := (h.withSlot hheld cells next).quiet hq₂
      obtain ⟨calls, rfl⟩ := hq₂
      have htouch := PrefixTree.touch_spec h₂.stores hq (hfound.ne_nil hq)
      refine ⟨h₂.sameSlots htouch.1 htouch.2, { Beside.refl s with }, rfl, fun σ hσ => ?_,
        htouch.2.slot, hfound.lt, fun hw => ?_⟩
      · exact update_of_ne hσ ..
      · rw [← hcontents hw]
        exact congrArg contents (update_self ..)
    have htagged : tagged (nsTag s.backend.activeAdapter ns) (prompt.take hit)
        = (tagged (nsTag s.backend.activeAdapter ns) q).take hit := by
      rw [← htake, tagged_take]
    simp only [wp_bind, wp_get]
    cases hslot : s.kv.slot node with
    | some src =>
      have hsrc := h.slot_lt node src hslot
      have hcontent : w.Reliable → contents (s.backend.slots src)
          = tagged (nsTag s.backend.activeAdapter ns) q :=
        fun hw => h.content hw node ns q src hq hslot
      have hfull : w.Reliable →
          s.backend.slots src ≠ [] ∧ s.backend.slots leaderSlot = [] := fun hw => by
        refine ⟨fun hnil => hfound.ne_nil hq ?_, hempty hw⟩
        have := hcontent hw
        rw [hnil] at this
        simpa [tagged] using this.symm
      have hcopied : ∀ upTo : Option ℕ, (upTo = none → hit = q.length) →
          (∀ n, upTo = some n → n = hit) → ∀ cells : List Cell,
          contents cells = contents (upTo.elim (s.backend.slots src) fun n =>
            (s.backend.slots src).take n) → w.Reliable →
          contents cells = tagged (nsTag s.backend.activeAdapter ns) (prompt.take hit) := by
        intro upTo hwhole hpart cells hcells hw
        rw [hcells, htagged, ← hcontent hw]
        cases upTo with
        | none =>
          rw [hwhole rfl, ← length_tagged (nsTag s.backend.activeAdapter ns) q, ← hcontent hw,
            take_length]
          rfl
        | some n =>
          rw [hpart n rfl, ← contents_take]
          rfl
      dsimp only
      simp only [wp_bind, wp_ite, wp_modify, wp_pure]
      refine ⟨fun hwhole => ?_, fun hpart => ?_⟩
      · refine wp_mono (seqCp_spec hsrc hlt (by simp) hfull) ?_ fun _ _ hf =>
          hf.trans ⟨calls₁, rfl⟩
        rintro _ s₂ ⟨cells, next, hq₂, hcells, -⟩
        obtain ⟨calls, rfl⟩ := hq₂
        exact hdone cells next _ ⟨calls, rfl⟩ (hcopied none
          (fun _ => by rw [hwhole]; exact hdepth) (by simp) cells hcells)
      · refine wp_mono (seqCp_spec hsrc hlt (fun _ => hfound.partial_unified hpart) hfull) ?_
          fun _ _ hf => hf.trans ⟨calls₁, rfl⟩
        rintro _ s₂ ⟨cells, next, hq₂, hcells, -⟩
        obtain ⟨calls, rfl⟩ := hq₂
        exact hdone cells next _ ⟨calls, rfl⟩ (hcopied (some hit) (by simp) (by simp) cells hcells)
    | none =>
      obtain ⟨hwhole, hsome⟩ := hfound.swapped hslot
      obtain ⟨snap, hsnap⟩ := isSome_iff_exists.mp hsome
      dsimp only
      rw [show s.kv.snapshot node = some snap from hsnap]
      dsimp only
      rw [wp_bind]
      refine wp_mono (seqLoad_spec snap hlt) ?_ fun _ _ hf => hf.trans ⟨calls₁, rfl⟩
      rintro _ s₂ ⟨cells, hq₂, hcells⟩
      obtain ⟨calls, rfl⟩ := hq₂
      refine hdone cells _ _ ⟨calls, rfl⟩ fun hw => ?_
      rw [hcells, Backend.contents_freshCells, h.saved hw node ns q snap hq hsnap, htagged, hwhole,
        hdepth, ← length_tagged (nsTag s.backend.activeAdapter ns) q, take_length]

/-- Making room for a lent slot ends: every round evicts a node. -/
theorem lendFrom_spec {cells : ℕ} (fuel : ℕ) : ∀ {P : Labels} {s : Scheduler}, Pool w H P s →
    s.kv.residentSlotCount < fuel →
    wp (lendFrom w cells fuel) (fun _ s' => Kept w H P s s') (Fails w H P s) s := by
  induction fuel with
  | zero =>
    intro P s _ hfuel
    omega
  | succ fuel ih =>
    intro P s h hfuel
    unfold lendFrom
    simp only [wp_bind, wp_ite, wp_get, wp_pure]
    refine wp_mono capacity_spec ?_ fun _ _ hf => hf.fails h
    rintro _ s₁ ⟨hq₁, rfl⟩
    have h₁ := h.quiet hq₁
    have hu₁ : Upkeep H s s₁ := Upkeep.quiet hq₁
    have hkv : s₁.kv = s.kv := by
      obtain ⟨calls, rfl⟩ := hq₁
      rfl
    refine ⟨fun _ => Kept.quiet h hq₁, fun _ => ?_⟩
    refine wp_mono (evictOneLru_spec h₁) ?_ fun _ _ hf =>
      hf.trans hu₁ (PrefixTree.Extends.refl P)
    rintro evicted s₂ ⟨⟨P₂, h₂, hu₂, he₂⟩, -, hfewer, -⟩
    have hu₂ := hu₁.trans hu₂
    refine ⟨fun hevicted => ?_, fun _ => ⟨P₂, h₂, hu₂, he₂⟩⟩
    have hlt := hfewer hevicted
    rw [hkv] at hlt
    refine wp_mono (ih h₂ (by omega)) ?_ fun _ _ hf => hf.trans hu₂ he₂
    exact fun _ s₃ hk => hk.trans hu₂ he₂

/-! ### Handing a slot over -/

/-- A held slot that was attached to a node at exactly its contents. -/
theorem Pool.attach {slot node : ℕ} {path : List Token} {attached : Bool} {kv : PrefixTree}
    (h : Pool w (slot :: H) P s) (hσ : slot ∉ H) (hlt : slot < w.nSlots) (hs : kv.Stores P')
    (hnode : P' node = some (ns, path)) (he : PrefixTree.Extends P P')
    (hins : PrefixTree.Inserted s.kv kv node slot attached)
    (hcontent : w.Reliable → contents (s.backend.slots slot) = tagged (nsTag s.backend.activeAdapter ns) path) :
    Pool w (if attached then H else slot :: H) P' { s with kv } := by
  have hslot : ∀ i σ, (kv.nodes i).slot = some σ →
      (i = node ∧ attached = true ∧ σ = slot) ∨ (s.kv.nodes i).slot = some σ := by
    intro i σ hi
    rw [hins.slot] at hi
    split at hi
    · next hcase => exact .inl ⟨hcase.1, hcase.2, (some.inj hi).symm⟩
    · exact .inr hi
  have hne : ∀ i σ, (s.kv.nodes i).slot = some σ → σ ≠ slot ∧ σ ∉ H := fun i σ hi => by
    simpa only [mem_cons, not_or] using h.slot_free i σ hi
  have hlabel : ∀ i σ l, (s.kv.nodes i).slot = some σ → P' i = some l → P i = some l := by
    intro i σ l hi hl
    obtain ⟨ns', p', hP, -⟩ := h.stores.ne_none_of_slot hi
    rw [he i _ hP] at hl
    rw [hP, hl]
  have hlabel' : ∀ i snap l, (s.kv.nodes i).snapshot = some snap → P' i = some l →
      P i = some l := by
    intro i snap l hi hl
    obtain ⟨ns', p', hP, -⟩ := h.stores.ne_none_of_snapshot hi
    rw [he i _ hP] at hl
    rw [hP, hl]
  constructor
  case toOwners =>
    constructor
    case stores => exact hs
    case nSlots => exact h.nSlots
    case key_le => exact h.key_le
    case rows => exact h.rows.congr rfl rfl rfl rfl rfl
    case slot_lt =>
      intro i σ hi
      rcases hslot i σ hi with ⟨-, -, rfl⟩ | hi
      · exact hlt
      · exact h.slot_lt i σ hi
    case slot_inj =>
      intro i j σ hi hj
      rcases hslot i σ hi with ⟨rfl, -, rfl⟩ | hi <;> rcases hslot j _ hj with ⟨rfl, -, hσj⟩ | hj
      · rfl
      · exact absurd rfl (hne j _ hj).1
      · exact absurd hσj (hne i _ hi).1
      · exact h.slot_inj i j σ hi hj
    case slot_free =>
      intro i σ hi hmem
      rcases hslot i σ hi with ⟨-, hattached, rfl⟩ | hi
      · rw [if_pos hattached] at hmem
        exact hσ hmem
      · split at hmem
        · exact (hne i σ hi).2 hmem
        · exact h.slot_free i σ hi hmem
    case empty =>
      intro hw σ hσlt hn hno
      cases hattached : attached with
      | false =>
        simp only [hattached, Bool.false_eq_true, if_false] at hn
        refine h.empty hw σ hσlt hn fun i hi => hno i ?_
        show (kv.nodes i).slot = some σ
        rw [hins.slot, hattached, if_neg (by simp), hi]
      | true =>
        simp only [hattached, if_true] at hn
        have hnode' : (kv.nodes node).slot = some slot := by
          rw [hins.slot, hattached, if_pos ⟨rfl, rfl⟩]
        have hσne : σ ≠ slot := fun hσs => hno node (hσs ▸ hnode')
        refine h.empty hw σ hσlt (by simp [hσne, hn]) fun i hi => hno i ?_
        show (kv.nodes i).slot = some σ
        rw [hins.slot, if_neg, hi]
        rintro ⟨rfl, -⟩
        rw [hins.attached_iff.mp hattached] at hi
        cases hi
  case content =>
    intro hw i ns' p' σ hi hσi
    rcases hslot i σ hσi with ⟨rfl, -, rfl⟩ | hσi
    · rw [hnode] at hi
      cases hi
      exact hcontent hw
    · exact h.content hw i ns' p' σ (hlabel i σ _ hσi hi) hσi
  case saved =>
    intro hw i ns' p' snap hi hsn
    have hsn : (kv.nodes i).snapshot = some snap := hsn
    rw [hins.snapshot] at hsn
    exact h.saved hw i ns' p' snap (hlabel' i snap _ hsn hi) hsn

/-- Emptying a held slot gives it up, and so does failing to. -/
theorem seqRm_held {slot : ℕ} (h : Pool w (slot :: H) P s) (hσ : slot ∉ H)
    (hlt : slot < w.nSlots) :
    wp (seqRm w slot) (fun _ s' => Pool w H P s' ∧ Upkeep H s s')
      (fun stop s' => (∃ error, stop = .error error) ∧ ¬w.Reliable ∧ Pool w H P s' ∧
        Upkeep H s s') s := by
  refine wp_mono (seqRm_spec hlt) ?_ ?_
  · rintro _ s' hq
    refine ⟨Pool.release (L := [slot])
      ((h.withSlot mem_cons_self [] s.backend.nextCell).quiet hq) fun _ σ hmem _ => ?_,
      (Upkeep.withSlot_nil hσ s.backend.nextCell).trans (Upkeep.quiet hq)⟩
    obtain ⟨calls, rfl⟩ := hq
    rw [mem_singleton.mp hmem]
    exact update_self ..
  · rintro stop s' ⟨herror, hw, hq⟩
    exact ⟨herror, hw, (h.quiet hq).release (L := [slot]) fun hw' => absurd hw' hw,
      Upkeep.quiet hq⟩

theorem resident_span (cells : List Cell) :
    (if (span cells).1 = 0 then ((span cells).2 + 1).toNat else 0) = cells.length := by
  cases cells <;> simp [span]

/-- What handing a slot over leaves: the slot is a node's, or empty. -/
def HandedOver (w : World) (H : List ℕ) (s s' : Scheduler) : Prop :=
  ∃ P', Pool w H P' s' ∧ Frame H s s'

/-- A finished sequence's slot ends up in the tree, or emptied. -/
theorem handOver_spec {slot : ℕ} {path : List Token} (h : Pool w (slot :: H) P s) (hσ : slot ∉ H)
    (hlt : slot < w.nSlots)
    (hcontent : w.Reliable → ∃ n, contents (s.backend.slots slot) = tagged (nsTag s.backend.activeAdapter ns) (path.take n)) :
    wp (handOver w ns path slot) (fun node s' => ∃ P', Pool w H P' s' ∧ Frame H s s' ∧
      ∀ i, node = some i → ∃ ns p, P' i = some (ns, p) ∧ p ≠ [])
      (fun stop s' => (∃ error, stop = .error error) ∧ ¬w.Reliable ∧ HandedOver w H s s') s := by
  unfold handOver
  rw [wp_bind]
  have hfail : ∀ stop s', QuietFails w s stop s' →
      (∃ error, stop = .error error) ∧ ¬w.Reliable ∧ HandedOver w H s s' := by
    rintro stop s' ⟨herror, hw, hq⟩
    exact ⟨herror, hw, P, (h.quiet hq).release (L := [slot]) fun hw' => absurd hw' hw,
      (Upkeep.quiet hq).toFrame⟩
  refine wp_mono (seqPos_spec hlt) ?_ hfail
  rintro p s₁ ⟨rfl, hq⟩
  have h₁ := h.quiet hq
  obtain ⟨calls, rfl⟩ := hq
  have hu₁ : Frame H s { s with backend := { s.backend with calls } } :=
    { Frame.refl H s with }
  dsimp only
  rw [resident_span]
  simp only [wp_bind, wp_get, wp_ite, wp_pure]
  refine ⟨fun hcond => ?_, fun _ => ?_⟩
  · simp only [Bool.and_eq_true, decide_eq_true_eq] at hcond
    obtain ⟨⟨⟨-, hpos⟩, -⟩, hle⟩ := hcond
    have htake : path.take (s.backend.slots slot).length ≠ [] := by
      rw [← length_pos_iff, length_take]
      omega
    obtain ⟨kv, node, attached, P₂, heq, hs₂, hnode, he₂, hins⟩ :=
      @PrefixTree.insert_spec _ _ ns h₁.stores _ htake slot
    have hcontent₁ : w.Reliable → contents (s.backend.slots slot)
        = tagged (nsTag s.backend.activeAdapter ns)
            (path.take (s.backend.slots slot).length) := fun hw => by
      obtain ⟨n, hn⟩ := hcontent hw
      have hlen := congrArg List.length hn
      rw [length_contents, length_tagged] at hlen
      rw [hn, hlen, length_take]
      rcases le_total n path.length with hn | hn
      · rw [min_eq_left hn]
      · rw [min_eq_right hn, take_length, take_of_length_le hn]
    have h₂ := h₁.attach hσ hlt hs₂ hnode he₂ hins hcontent₁
    refine wp_onTree (a := (node, attached)) heq ?_
    have hu₂ : Frame H s { s with kv, backend := { s.backend with calls } } :=
      { Frame.refl H s with }
    have hpath : ∀ i, some node = some i → ∃ ns p, P₂ i = some (ns, p) ∧ p ≠ [] :=
      fun i hi => ⟨ns, _, some.inj hi ▸ hnode, htake⟩
    cases attached with
    | true => exact ⟨fun hattached => by simp at hattached, fun _ => ⟨P₂, h₂, hu₂, hpath⟩⟩
    | false =>
      refine ⟨fun _ => ?_, fun hattached => absurd rfl hattached⟩
      refine wp_mono (seqRm_held h₂ hσ hlt) ?_ ?_
      · rintro _ s₃ ⟨h₃, hu₃⟩
        exact ⟨P₂, h₃, hu₂.trans hu₃.toFrame, hpath⟩
      · rintro stop s₃ ⟨herror, hw, h₃, hu₃⟩
        exact ⟨herror, hw, P₂, h₃, hu₂.trans hu₃.toFrame⟩
  · refine wp_mono (seqRm_held h₁ hσ hlt) ?_ ?_
    · rintro _ s₂ ⟨h₂, hu₂⟩
      exact ⟨P, h₂, hu₁.trans hu₂.toFrame, by simp⟩
    · rintro stop s₂ ⟨herror, hw, h₂, hu₂⟩
      exact ⟨herror, hw, P, h₂, hu₁.trans hu₂.toFrame⟩

end Retrograd.Infer
