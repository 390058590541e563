import Retrograd.Infer.Pool

/-!
# Upkeep of the prefix tree

Each program around the tree — releases, pins, retentions, expiry, the cache key, the retiring
adapters — keeps the pool and fails only when a backend call does. Its loops are shown to end:
a round forgets a retention, a retiring adapter or a snapshot.
-/

namespace Retrograd.Infer

open Logic

variable {w : World} {H : List ℕ} {P P' : Labels} {s s' : Scheduler}

/-! ### Forgetting nodes -/

/-- A step of the tree whose walk ends. -/
theorem wp_onTree {α : Type} {f : PrefixTree → Option (PrefixTree × α)} {kv : PrefixTree} {a : α}
    {Q : α → Scheduler → Prop} {E : Stop → Scheduler → Prop} (hf : f s.kv = some (kv, a))
    (h : Q a { s with kv }) : wp (onTree f) Q E s := by
  unfold onTree
  rw [wp_bind, wp_get, hf]
  exact h

/-- The pool after the tree forgot nodes: the slots `L` they owned are held until released. -/
theorem Pool.forget {L : List ℕ} {kv : PrefixTree} (h : Pool w H P s) (hs : kv.Stores P')
    (he : PrefixTree.Extends P' P)
    (hslot : ∀ i σ, (kv.nodes i).slot = some σ → (s.kv.nodes i).slot = some σ ∧ σ ∉ L)
    (hlost : ∀ i σ, (s.kv.nodes i).slot = some σ → (kv.nodes i).slot = some σ ∨ σ ∈ L)
    (hsnap : ∀ i snap, (kv.nodes i).snapshot = some snap →
      (s.kv.nodes i).snapshot = some snap) : Pool w (L ++ H) P' { s with kv } :=
  { h with
    stores := hs
    slot_lt := fun i σ hi => h.slot_lt i σ (hslot i σ hi).1
    slot_inj := fun i j σ hi hj => h.slot_inj i j σ (hslot i σ hi).1 (hslot j σ hj).1
    slot_free := fun i σ hi hσ => by
      rcases List.mem_append.mp hσ with hL | hH
      · exact (hslot i σ hi).2 hL
      · exact h.slot_free i σ (hslot i σ hi).1 hH
    rows := h.rows.congr rfl rfl rfl rfl rfl
    content := fun hw i ns p σ hi hσ => h.content hw i ns p σ (he i _ hi) (hslot i σ hσ).1
    saved := fun hw i ns p snap hi hsn => h.saved hw i ns p snap (he i _ hi) (hsnap i snap hsn)
    empty := fun hw σ hσ hH hno => by
      simp only [List.mem_append, not_or] at hH
      refine h.empty hw σ hσ hH.2 fun i hi => ?_
      rcases hlost i σ hi with hi' | hL
      · exact hno i hi'
      · exact hH.1 hL }

theorem Upkeep.forget {kv : PrefixTree} (h : Pool w H P s) (hs : kv.Stores P')
    (he : PrefixTree.Extends P' P)
    (hslot : ∀ i σ, (kv.nodes i).slot = some σ → (s.kv.nodes i).slot = some σ) :
    Upkeep H s { s with kv } :=
  { Upkeep.refl H s with
    resident := fun i σ hi => by
      obtain ⟨ns, p, hP', -⟩ := hs.ne_none_of_slot hi
      refine ⟨hslot i σ hi, ?_⟩
      show (kv.nodes i).depth = _
      rw [hs.depth_eq i ns p hP', h.stores.depth_eq i ns p (he i _ hP')] }

/-- A tree that keeps its paths, slots and snapshots keeps the pool. -/
theorem Pool.sameSlots {kv : PrefixTree} (h : Pool w H P s) (hs : kv.Stores P)
    (hsame : PrefixTree.SameSlots s.kv kv) : Pool w H P { s with kv } := by
  have hL := h.forget (L := []) hs (PrefixTree.Extends.refl P)
    (fun i σ hi => ⟨by rw [← hsame.slot]; exact hi, List.not_mem_nil⟩)
    (fun i σ hi => .inl (by rw [hsame.slot]; exact hi))
    fun i snap hi => by rw [← hsame.snapshot]; exact hi
  exact hL

/-- Retentions, counters and the clock are no part of the pool. -/
theorem Kept.bookkeeping (hk : Kept w H P s s') (retained : Map String Retained)
    (kvStats : KvStats) (clock reads : ℕ) :
    Kept w H P s { s' with retained, kvStats, clock, reads } := by
  obtain ⟨P', hp, hu, he⟩ := hk
  refine ⟨P', hp.congr rfl rfl rfl rfl rfl rfl (hp.rows.congr rfl rfl rfl rfl rfl), ?_, he⟩
  exact hu.trans { Upkeep.refl H s' with }

/-! ### Pins and retentions -/

theorem unpin_spec (h : Pool w H P s) (id : PinId) :
    wp (unpin id) (fun _ s' => Pool w H P s' ∧ Upkeep H s s' ∧ s'.retained = s.retained)
      (Fails w H P s) s := by
  unfold unpin
  rw [wp_modifyGet]
  obtain ⟨hs, hsame⟩ := PrefixTree.unpin_spec h.stores id
  exact ⟨h.sameSlots hs hsame, Upkeep.forget h hs (PrefixTree.Extends.refl P)
    fun i σ hi => by rw [← hsame.slot]; exact hi, rfl⟩

/-- Releasing a retention that is there forgets it; the answer is true only then. -/
theorem releaseRetained_spec (h : Pool w H P s) (key : String) :
    wp (releaseRetained key) (fun b s' => Pool w H P s' ∧ Upkeep H s s' ∧
      s'.retained.size ≤ s.retained.size ∧ (b = true → s'.retained.size < s.retained.size))
      (Fails w H P s) s := by
  unfold releaseRetained
  rw [wp_bind, wp_get]
  cases hget : s.retained.get key with
  | none => exact ⟨h, Upkeep.refl H s, le_rfl, by simp⟩
  | some retained =>
    rw [wp_bind, wp_modify]
    have hp : Pool w H P { s with retained := s.retained.erase key } :=
      h.congr rfl rfl rfl rfl rfl rfl (h.rows.congr rfl rfl rfl rfl rfl)
    have hu : Upkeep H s { s with retained := s.retained.erase key } :=
      { Upkeep.refl H s with }
    refine wp_mono (unpin_spec hp retained.pin) ?_ fun stop s' hf =>
      hf.trans hu (PrefixTree.Extends.refl P)
    rintro b s' ⟨hp', hu', hsize⟩
    have herase := Map.size_erase hget
    refine ⟨hp', hu.trans hu', ?_, fun _ => ?_⟩ <;>
    · rw [hsize]
      dsimp only
      omega

theorem releaseOldestRetained_spec (h : Pool w H P s) :
    wp releaseOldestRetained (fun b s' => Pool w H P s' ∧ Upkeep H s s' ∧
      s'.retained.size ≤ s.retained.size ∧ (b = true → s'.retained.size < s.retained.size))
      (Fails w H P s) s := by
  unfold releaseOldestRetained
  rw [wp_bind, wp_get]
  cases oldestRetained s with
  | none => exact ⟨h, Upkeep.refl H s, le_rfl, by simp⟩
  | some key => exact releaseRetained_spec h key

/-- Making room ends: every round that goes on has forgotten a retention. -/
theorem makeRoom_spec (cap : ℕ) (fuel : ℕ) : ∀ {s : Scheduler}, Pool w H P s →
    s.retained.size < fuel →
    wp (makeRoom cap fuel) (fun _ s' => Pool w H P s' ∧ Upkeep H s s') (Fails w H P s) s := by
  induction fuel with
  | zero => intro s _ hfuel; omega
  | succ fuel ih =>
    intro s h hfuel
    unfold makeRoom
    rw [wp_bind, wp_get, wp_ite]
    refine ⟨fun _ => ?_, fun _ => ⟨h, Upkeep.refl H s⟩⟩
    rw [wp_bind]
    refine wp_mono (releaseOldestRetained_spec h) ?_ fun _ _ hf => hf
    rintro b s' ⟨h', hu, -, hlt⟩
    rw [wp_ite]
    refine ⟨fun hb => ?_, fun _ => ⟨h', hu⟩⟩
    have hlt := hlt hb
    refine wp_mono (ih h' (by omega)) ?_ fun _ _ hf => hf.trans hu (PrefixTree.Extends.refl P)
    rintro _ s'' ⟨h'', hu'⟩
    exact ⟨h'', hu.trans hu'⟩

theorem now_spec (h : Pool w H P s) :
    wp (now w) (fun _ s' => Pool w H P s' ∧ Upkeep H s s' ∧ s'.kv = s.kv ∧
      s'.retained = s.retained) (Fails w H P s) s := by
  unfold now
  rw [wp_modifyGet]
  exact ⟨h.congr rfl rfl rfl rfl rfl rfl (h.rows.congr rfl rfl rfl rfl rfl),
    { Upkeep.refl H s with }, rfl, rfl⟩

theorem pinNode_keeps (h : Pool w H P s) {node : ℕ} {ns : Namespace} {p : List Token}
    (hi : P node = some (ns, p)) (hp : p ≠ []) :
    Pool w H P { s with kv := (s.kv.pinNode node).1 } ∧
      Upkeep H s { s with kv := (s.kv.pinNode node).1 } := by
  obtain ⟨hs, hsame⟩ := PrefixTree.pinNode_spec h.stores hi hp
  exact ⟨h.sameSlots hs hsame, Upkeep.forget h hs (PrefixTree.Extends.refl P)
    fun i σ hi => by rw [← hsame.slot]; exact hi⟩

theorem forgetRetained_spec (h : Pool w H P s) (key : String) :
    wp (forgetRetained key) (fun _ s' => Pool w H P s' ∧ Upkeep H s s') (Fails w H P s) s := by
  unfold forgetRetained
  rw [wp_bind, wp_get]
  cases hget : s.retained.get key with
  | none => exact ⟨h, Upkeep.refl H s⟩
  | some old =>
    have h₁ : Pool w H P { s with retained := s.retained.erase key } :=
      h.congr rfl rfl rfl rfl rfl rfl (h.rows.congr rfl rfl rfl rfl rfl)
    have hu₁ : Upkeep H s { s with retained := s.retained.erase key } :=
      { Upkeep.refl H s with }
    simp only [wp_bind, wp_modify, wp_pure]
    refine wp_mono (unpin_spec h₁ old.pin) ?_ fun _ _ hf =>
      hf.trans hu₁ (PrefixTree.Extends.refl P)
    rintro _ s₂ ⟨h₂, hu₂, -⟩
    exact ⟨h₂, hu₁.trans hu₂⟩

/-- Retaining a stored node keeps the pool. -/
theorem retain_spec (h : Pool w H P s) (key : String) {node : ℕ} {ns : Namespace}
    {p : List Token} (hi : P node = some (ns, p)) (hp : p ≠ []) :
    wp (retain w key node) (fun _ s' => Pool w H P s' ∧ Upkeep H s s') (Fails w H P s) s := by
  unfold retain
  rw [wp_bind]
  refine wp_mono (forgetRetained_spec h key) ?_ fun _ _ hf => hf
  rintro _ s₁ ⟨h₁, hu₁⟩
  unfold pinRetained
  simp only [wp_bind, wp_get, wp_ite, wp_pure, wp_modifyGet, wp_modify]
  refine ⟨fun _ => ⟨h₁, hu₁⟩, fun _ => ?_⟩
  refine wp_mono (makeRoom_spec _ _ h₁ (Nat.lt_succ_self _)) ?_ fun _ _ hf =>
    hf.trans hu₁ (PrefixTree.Extends.refl P)
  rintro _ s₂ ⟨h₂, hu₂⟩
  obtain ⟨h₃, hu₃⟩ := pinNode_keeps h₂ hi hp
  have hu₃ := (hu₁.trans hu₂).trans hu₃
  refine wp_mono (now_spec h₃) ?_ fun _ _ hf => hf.trans hu₃ (PrefixTree.Extends.refl P)
  rintro since s₄ ⟨h₄, hu₄, -, -⟩
  exact ⟨h₄.congr rfl rfl rfl rfl rfl rfl (h₄.rows.congr rfl rfl rfl rfl rfl),
    (hu₃.trans hu₄).trans { Upkeep.refl H s₄ with }⟩

theorem releaseExpiredRetained_spec (h : Pool w H P s) :
    wp (releaseExpiredRetained w) (fun _ s' => Pool w H P s' ∧ Upkeep H s s') (Fails w H P s)
      s := by
  unfold releaseExpiredRetained
  rw [wp_bind, wp_get]
  refine wp_forM (I := fun s' => Pool w H P s' ∧ Upkeep H s s') ?_ ⟨h, Upkeep.refl H s⟩
  rintro entry - s₁ ⟨h₁, hu₁⟩
  unfold expireRetained
  rw [wp_bind]
  refine wp_mono (now_spec h₁) ?_ fun _ _ hf => hf.trans hu₁ (PrefixTree.Extends.refl P)
  rintro time s₂ ⟨h₂, hu₂, -, -⟩
  have hu₂ := hu₁.trans hu₂
  rw [wp_bind, wp_get, wp_ite]
  refine ⟨fun _ => ?_, fun _ => ⟨h₂, hu₂⟩⟩
  obtain ⟨hs, hsame⟩ := PrefixTree.unpin_spec h₂.stores entry.2.pin
  rw [wp_set]
  refine ⟨(h₂.sameSlots hs hsame).congr rfl rfl rfl rfl rfl rfl
    ((h₂.sameSlots hs hsame).rows.congr rfl rfl rfl rfl rfl), hu₂.trans ?_⟩
  exact { Upkeep.forget h₂ hs (PrefixTree.Extends.refl P)
    (fun i σ hi => by rw [← hsame.slot]; exact hi) with }

end Retrograd.Infer
