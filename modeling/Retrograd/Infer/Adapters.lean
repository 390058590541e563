import Retrograd.Infer.Upkeep

/-!
# Cache keys and adapters

The prefix tree lives under one cache key. **Activating** a serialized adapter empties every slot
behind the tree's back; the key moves with it, and the refresh that follows drops the tree before
anybody reads it. A per-row adapter is **retired** when it is unloaded or replaced, and freed with
its namespace once no live group decodes under it.
-/

namespace Retrograd.Infer

open Logic List

variable {w : World} {H : List ℕ} {P P' : Labels} {s s' : Scheduler}

/-! ### The cache key -/

theorem extends_emptyLabels {t : PrefixTree} (h : t.Stores P) :
    PrefixTree.Extends PrefixTree.emptyLabels P := by
  intro i l hi
  by_cases h0 : i = 0
  · subst h0
    rw [PrefixTree.emptyLabels, if_pos rfl] at hi
    cases hi
    exact (h.root_iff 0 0).mp (by simp [PrefixTree.root])
  · simp [PrefixTree.emptyLabels, h0] at hi

/-- A cleared tree asks nothing of the slots it gave up. -/
theorem Owners.clear (h : Owners w H P s) :
    Pool w (s.kv.residentSlots ++ H) PrefixTree.emptyLabels { s with kv := s.kv.clear.1 } where
  stores := PrefixTree.clear_spec s.kv
  nSlots := h.nSlots
  slot_lt i σ hi := by cases hi
  slot_inj i j σ hi := by cases hi
  slot_free i σ hi := by cases hi
  key_le := h.key_le
  rows := h.rows.congr rfl rfl rfl rfl rfl
  content _ i ns p σ _ hi := by cases hi
  saved _ i ns p snap _ hi := by cases hi
  empty hw σ hσ hn _ := by
    simp only [mem_append, not_or, PrefixTree.mem_residentSlots h.stores, not_exists] at hn
    exact h.empty hw σ hσ hn.2 hn.1

/-- Refreshing the key keeps a pool, and makes one of a tree whose key has moved. -/
theorem refreshKey_spec (h : Owners w H P s)
    (hpool : s.kvKey = some (s.backend.cacheKey w) → Pool w H P s) :
    wp (refreshKey w) (fun _ s' => Kept w H P s s') (Fails w H P s) s := by
  unfold refreshKey
  simp only [wp_bind, wp_get, wp_ite, wp_set, wp_modify, wp_pure]
  refine wp_mono cacheKey_spec ?_ fun _ _ hf => hf.fails (h.pool hf.2.1)
  rintro key s₁ ⟨rfl, hq⟩
  obtain ⟨calls, rfl⟩ := hq
  refine ⟨fun _ => ?_, fun hsame => ?_⟩
  · have hclear := h.clear
    have h₁ : Pool w (s.kv.residentSlots ++ H) PrefixTree.emptyLabels
        { s with backend := { s.backend with calls }, kv := s.kv.clear.1 } :=
      hclear.congr rfl rfl rfl rfl rfl rfl (hclear.rows.congr rfl rfl rfl rfl rfl)
    have hu₁ : Upkeep H s
        { s with backend := { s.backend with calls }, kv := s.kv.clear.1 } :=
      { Upkeep.refl H s with resident := fun i σ hi => by cases hi }
    have he := extends_emptyLabels h.stores
    refine wp_mono (seqRm_list h₁ (fun σ hσ => ?_) fun σ hσ => ?_) ?_ fun _ _ hf =>
      hf.trans hu₁ he
    · obtain ⟨i, hi⟩ := (PrefixTree.mem_residentSlots h.stores).mp hσ
      exact h.slot_lt i σ hi
    · obtain ⟨i, hi⟩ := (PrefixTree.mem_residentSlots h.stores).mp hσ
      exact h.slot_free i σ hi
    · rintro _ s₂ ⟨h₂, hu₂, -⟩
      refine ⟨_, ?_, (hu₁.trans hu₂).trans { Upkeep.refl H s₂ with }, he⟩
      exact { h₂ with
        rows := h₂.rows.congr rfl rfl rfl rfl rfl
        key_le := fun k hk => by
          cases hk
          exact hu₂.version.ge }
  · exact Kept.quiet (hpool (not_not.mp hsame)) ⟨calls, rfl⟩

/-- The state after the backend activated an adapter: every slot is empty. -/
def Scheduler.activated (s : Scheduler) (wanted : Option String) : Scheduler :=
  { s with
    activeAdapter := wanted
    backend := { s.backend with
      activeAdapter := wanted, slots := fun _ => []
      weightsVersion := s.backend.weightsVersion + 1 } }

theorem Owners.activated (h : Owners w H P s) (wanted : Option String) :
    Owners w H P (s.activated wanted) :=
  { h with
    key_le := fun k hk => (h.key_le k hk).trans (Nat.le_succ _)
    rows := { h.rows with }
    empty := fun _ _ _ _ _ => rfl }

/-- How an operation that may be refused fails: with an error, the pool kept. -/
def Refused (w : World) (H : List ℕ) (P : Labels) (s : Scheduler) (stop : Stop) (s' : Scheduler) :
    Prop :=
  (∃ error, stop = .error error) ∧ ∃ P', Pool w H P' s' ∧ Beside s s' ∧ PrefixTree.Extends P' P

theorem Fails.refused {stop : Stop} (hf : Fails w H P s stop s') : Refused w H P s stop s' := by
  obtain ⟨herror, -, P', h', hu, he⟩ := hf
  exact ⟨herror, P', h', hu.toBeside, he⟩

/-- Switching adapters keeps a pool in which no slot is held. -/
theorem ensureAdapter_spec (h : Pool w [] P s) (wanted : Option String) :
    wp (ensureAdapter w wanted) (fun _ s' => ∃ P', Pool w [] P' s' ∧ Beside s s' ∧
      PrefixTree.Extends P' P) (Refused w [] P s) s := by
  unfold ensureAdapter
  simp only [wp_bind, wp_ite, wp_modify, wp_pure]
  refine wp_mono backendAdapter_spec ?_ fun _ _ hf => (hf.fails h).refused
  rintro current s₁ ⟨rfl, hq⟩
  have h₁ := h.quiet hq
  have hu₁ : Upkeep [] s s₁ := Upkeep.quiet hq
  refine ⟨fun _ => ?_, fun _ => ⟨P, h₁, hu₁.toBeside, PrefixTree.Extends.refl P⟩⟩
  · refine wp_invoke (fun _ _ hf => ?_) (fun calls a b hb => ?_) fun calls error b hb => ?_
    · obtain ⟨herror, -, P', h', hu, he⟩ := hf.fails h₁
      exact ⟨herror, P', h', (hu₁.trans hu).toBeside, he⟩
    · simp only [Backend.activateAdapter] at hb
      split at hb <;> cases hb
      have h₂ := h₁.toOwners.activated wanted
      have h₃ : Owners w [] P { s₁.activated wanted with
          backend := { (s₁.activated wanted).backend with calls } } :=
        { h₂ with rows := h₂.rows.congr rfl rfl rfl rfl rfl }
      have hb₃ : Beside s { s₁.activated wanted with
          backend := { (s₁.activated wanted).backend with calls } } :=
        hu₁.toBeside.trans { Beside.refl s₁ with }
      refine wp_mono (refreshKey_spec h₃ fun hkey => ?_) ?_ ?_
      · -- the version moved past the tree's key
        have hle := h₁.key_le _ hkey
        have hlt : s₁.backend.weightsVersion + 1 ≤ s₁.backend.weightsVersion := hle
        omega
      · rintro _ s₄ ⟨P', h', hu, he⟩
        exact ⟨P', h', hb₃.trans hu.toBeside, he⟩
      · rintro stop s₄ ⟨herror, -, P', h', hu, he⟩
        exact ⟨herror, P', h', hb₃.trans hu.toBeside, he⟩
    · simp only [Backend.activateAdapter] at hb
      split at hb <;> cases hb
      exact ⟨⟨_, rfl⟩, P, h₁.quiet ⟨calls, rfl⟩,
        (hu₁.trans (Upkeep.quiet ⟨calls, rfl⟩)).toBeside, PrefixTree.Extends.refl P⟩

/-! ### Pinning -/

theorem pinPrefix_spec (h : Pool w H P s) (tokens : List Token) :
    wp (pinPrefix w tokens) (fun _ s' => Kept w H P s s')
      (fun stop s' => (∃ error, stop = .error error) ∧ Kept w H P s s') s := by
  unfold pinPrefix
  rw [wp_bind]
  refine wp_mono (refreshKey_spec h.toOwners fun _ => h) ?_ fun _ _ hf => ⟨hf.1, hf.2.2⟩
  rintro _ s₁ ⟨P₁, h₁, hu₁, he₁⟩
  rw [wp_bind, wp_get]
  obtain ⟨found, heq, hfound⟩ := PrefixTree.findExact_spec h₁.stores 0 tokens
  rw [heq]
  cases found with
  | none => exact ⟨⟨_, rfl⟩, P₁, h₁, hu₁, he₁⟩
  | some node =>
    obtain ⟨hi, hp⟩ := hfound node rfl
    obtain ⟨h₂, hu₂⟩ := pinNode_keeps h₁ hi hp
    exact ⟨P₁, h₂, hu₁.trans hu₂, he₁⟩

/-! ### Retiring adapters -/

theorem swapRemove_perm {α : Type} {l : List α} {i : ℕ} {x : α} (h : l[i]? = some x) :
    (x :: swapRemove l i).Perm l := by
  obtain ⟨hi, rfl⟩ := List.getElem?_eq_some_iff.mp h
  have hsplit : l = l.take i ++ l[i] :: l.drop (i + 1) := by simp
  generalize l[i] = x at hsplit ⊢
  generalize hA : l.take i = A at hsplit
  have hlen : A.length = i := by rw [← hA, length_take]; omega
  generalize l.drop (i + 1) = B at hsplit
  subst hsplit
  rcases eq_nil_or_concat' B with rfl | ⟨B, z, rfl⟩
  · have : swapRemove (A ++ [x]) i = A := by
      simp [swapRemove, ← hlen]
    rw [this]
    exact (perm_append_singleton x A).symm
  · have : swapRemove (A ++ x :: (B ++ [z])) i = A ++ z :: B := by
      have hlast : (A ++ x :: (B ++ [z])).getLast? = some z := by
        rw [← cons_append, ← append_assoc, getLast?_concat]
      rw [swapRemove, hlast, ← hlen]
      simp only [set_append, lt_self_iff_false, if_false, Nat.sub_self, set_cons_zero]
      rw [← cons_append, ← append_assoc, dropLast_concat]
    rw [this]
    calc (x :: (A ++ z :: B)).Perm (A ++ x :: z :: B) := perm_middle.symm
      _ |>.Perm (A ++ x :: (B ++ [z])) :=
        ((perm_append_singleton z B).symm.cons x).append_left A

/-- Freeing a retiring adapter that no live group decodes under keeps the adapters' books. -/
theorem Rows.free {id index : ℕ} (h : Rows s) (hid : s.retiring[index]? = some id)
    (hlive : ∀ group ∈ s.live, group.adapter ≠ .loaded id) :
    Rows { s with
      retiring := swapRemove s.retiring index
      backend := { s.backend with rowAdapters := s.backend.rowAdapters.erase id } } := by
  have hperm := swapRemove_perm hid
  have hnodup := hperm.nodup_iff.mpr h.nodup
  rw [nodup_cons] at hnodup
  have hmem : ∀ x, x ∈ s.retiring ↔ x = id ∨ x ∈ swapRemove s.retiring index := fun x => by
    rw [← hperm.mem_iff, mem_cons]
  constructor
  case next_pos => exact h.next_pos
  case lt_next => exact fun x hx => h.lt_next x (mem_of_mem_erase hx)
  case inj => exact h.inj
  case nodup => exact hnodup.2
  case live_ne_base => exact h.live_ne_base
  case names =>
    intro name x hx
    obtain ⟨hpos, hloaded, hnot⟩ := h.names name x hx
    rw [hmem, not_or] at hnot
    exact ⟨hpos, (mem_erase_of_ne hnot.1).mpr hloaded, hnot.2⟩
  case retiring =>
    intro x hx
    obtain ⟨hpos, hloaded⟩ := h.retiring x ((hmem x).mpr (.inr hx))
    exact ⟨hpos, (mem_erase_of_ne (ne_of_mem_of_not_mem hx hnodup.1)).mpr hloaded⟩
  case live =>
    intro group hg x hx
    rcases h.live group hg x hx with hret | hname
    · rcases (hmem x).mp hret with rfl | hret
      · exact absurd hx (hlive group hg)
      · exact .inl hret
    · exact .inr hname

/-- Every round frees a retiring adapter or passes one over. -/
theorem releaseRetiredFrom_spec (fuel : ℕ) : ∀ {index : ℕ} {P : Labels} {s : Scheduler},
    Pool w H P s → index ≤ s.retiring.length → s.retiring.length < fuel + index →
    wp (releaseRetiredFrom w fuel index) (fun _ s' => Kept w H P s s') (Fails w H P s) s := by
  induction fuel with
  | zero =>
    intro index P s h hindex hfuel
    omega
  | succ fuel ih =>
    intro index P s h hindex hfuel
    unfold releaseRetiredFrom
    rw [wp_bind, wp_get]
    cases hid : s.retiring[index]? with
    | none => exact Kept.refl h
    | some id =>
      have hlt : index < s.retiring.length := (List.getElem?_eq_some_iff.mp hid).1
      dsimp only
      rw [wp_ite]
      refine ⟨fun _ => ih h hlt (by omega), fun hlive => ?_⟩
      obtain ⟨kv, slots, P₁, heq, hs₁, he₁, -, hdrop⟩ :=
        PrefixTree.dropNamespace_spec h.stores (adapterNamespace (.loaded id))
      rw [wp_bind]
      refine wp_onTree heq ?_
      have hslots : ∀ σ ∈ slots, ∃ i, (s.kv.nodes i).slot = some σ := fun σ hσ => by
        obtain ⟨i, -, hi⟩ := (hdrop.slots σ).mp hσ
        exact ⟨i, hi⟩
      have hkept : ∀ i σ, (kv.nodes i).slot = some σ → (s.kv.nodes i).slot = some σ ∧
          σ ∉ slots := by
        intro i σ hi
        rw [hdrop.slot] at hi
        split at hi
        · cases hi
        · next hns =>
          refine ⟨hi, fun hσ => ?_⟩
          obtain ⟨j, hj, hjσ⟩ := (hdrop.slots σ).mp hσ
          exact hns (h.slot_inj i j σ hi hjσ ▸ hj)
      have h₁ : Pool w (slots ++ H) P₁ { s with kv } := by
        refine h.forget hs₁ he₁ hkept (fun i σ hi => ?_) fun i snap hi => ?_
        · rw [hdrop.slot, hdrop.slots]
          by_cases hns : (P i).map Prod.fst = some (adapterNamespace (.loaded id))
          · exact .inr ⟨i, hns, hi⟩
          · exact .inl (by rw [if_neg hns]; exact hi)
        · rw [hdrop.snapshot] at hi
          split at hi
          · cases hi
          · exact hi
      have hu₁ : Upkeep H s { s with kv } :=
        Upkeep.forget h hs₁ he₁ fun i σ hi => (hkept i σ hi).1
      rw [wp_bind]
      refine wp_mono (seqRm_list h₁ (fun σ hσ => ?_) fun σ hσ => ?_) ?_ fun _ _ hf =>
        hf.trans hu₁ he₁
      · obtain ⟨i, hi⟩ := hslots σ hσ
        exact h.slot_lt i σ hi
      · obtain ⟨i, hi⟩ := hslots σ hσ
        exact h.slot_free i σ hi
      rintro _ s₂ ⟨h₂, hu₂, -, -, -, hretiring, hloaded, -⟩
      have hu₂ := hu₁.trans hu₂
      have hid₂ : s₂.retiring[index]? = some id := by rw [hretiring]; exact hid
      have hmem : id ∈ s₂.backend.rowAdapters :=
        (h₂.rows.retiring id (mem_of_getElem? hid₂)).2
      rw [wp_bind]
      refine wp_invoke (fun _ _ hf => (hf.fails h₂).trans hu₂ he₁) (fun calls a b hb => ?_)
        fun calls error b hb => ?_
      · simp only [Backend.unloadRowAdapter, contains_eq_mem, hmem, decide_true,
          if_true] at hb
        cases hb
        rw [wp_bind, wp_modify]
        have hrows := h₂.rows.free hid₂ fun group hg hadapter => by
          rw [hu₂.live] at hg
          exact hlive (any_eq_true.mpr ⟨group, hg, decide_eq_true hadapter⟩)
        have h₃ : Pool w H _ { s₂ with
            retiring := swapRemove s₂.retiring index
            backend := { s₂.backend with
              rowAdapters := s₂.backend.rowAdapters.erase id, calls } } := h₂.congr rfl rfl rfl rfl rfl rfl (hrows.congr rfl rfl rfl rfl rfl)
        have hu₃ : Upkeep H s { s₂ with
            retiring := swapRemove s₂.retiring index
            backend :=
              { s₂.backend with rowAdapters := s₂.backend.rowAdapters.erase id, calls } } :=
          hu₂.trans { Upkeep.refl H s₂ with }
        have hlen : (swapRemove s₂.retiring index).length + 1 = s.retiring.length := by
          rw [← length_cons, (swapRemove_perm hid₂).length_eq, hretiring]
        refine wp_mono (ih h₃ ?_ ?_) ?_ ?_
        · show index ≤ (swapRemove s₂.retiring index).length
          omega
        · show (swapRemove s₂.retiring index).length < fuel + index
          omega
        · exact fun _ s₄ hk => hk.trans hu₃ he₁
        · exact fun _ s₄ hf => hf.trans hu₃ he₁
      · simp only [Backend.unloadRowAdapter, contains_eq_mem, hmem, decide_true,
          if_true] at hb
        cases hb

theorem releaseRetired_spec (h : Pool w H P s) :
    wp (releaseRetired w) (fun _ s' => Kept w H P s s') (Fails w H P s) s := by
  unfold releaseRetired
  rw [wp_bind, wp_get]
  exact releaseRetiredFrom_spec _ h (Nat.zero_le _) (Nat.lt_succ_self _)

/-! ### Loading and unloading -/

/-- What loading and unloading adapters leaves alone: everything but the names. -/
def Renamed (H : List ℕ) (s s' : Scheduler) : Prop :=
  Upkeep H { s with rowAdapters := s'.rowAdapters, unloadedAdapters := s'.unloadedAdapters } s'

/-- A state in which `old`, if any, has lost its name but does not retire yet. -/
theorem retire_spec {old : Option ℕ}
    (h : Pool w H P { s with retiring := s.retiring ++ old.toList }) :
    wp (retire w old) (fun _ s' => Kept w H P s s') (Fails w H P s) s := by
  cases old with
  | none =>
    rw [show ({ s with retiring := s.retiring ++ (none : Option ℕ).toList } : Scheduler) = s by
      simp] at h
    exact Kept.refl h
  | some id =>
    unfold retire
    rw [wp_bind, wp_modify]
    have hu : Upkeep H s { s with retiring := s.retiring ++ [id] } := { Upkeep.refl H s with }
    refine wp_mono (releaseRetired_spec h) ?_ fun _ _ hf => ?_
    · exact fun _ s' hk => hk.trans hu (PrefixTree.Extends.refl P)
    · exact hf.trans hu (PrefixTree.Extends.refl P)

/-- A name that is taken away from an adapter leaves it retiring. -/
theorem Rows.rename {names : Map String ℕ} (h : Rows s) (name : String)
    (hnames : ∀ name', name' ≠ name → names.get name' = s.rowAdapters.get name')
    (hname : names.get name = none) :
    Rows { s with
      rowAdapters := names, retiring := s.retiring ++ (s.rowAdapters.get name).toList } := by
  have hget : ∀ name' id, names.get name' = some id →
      name' ≠ name ∧ s.rowAdapters.get name' = some id := by
    intro name' id hid
    have hne : name' ≠ name := by
      rintro rfl
      rw [hname] at hid
      cases hid
    exact ⟨hne, by rw [← hnames name' hne, hid]⟩
  have hmem : ∀ id, id ∈ s.retiring ++ (s.rowAdapters.get name).toList ↔
      id ∈ s.retiring ∨ s.rowAdapters.get name = some id := fun id => by
    rw [mem_append, Option.mem_toList]
  constructor
  case next_pos => exact h.next_pos
  case lt_next => exact h.lt_next
  case live_ne_base => exact h.live_ne_base
  case names =>
    intro name' id hid
    obtain ⟨hne, hid'⟩ := hget name' id hid
    obtain ⟨hpos, hloaded, hnot⟩ := h.names name' id hid'
    refine ⟨hpos, hloaded, fun hret => ?_⟩
    rcases (hmem id).mp hret with hret | hold
    · exact hnot hret
    · exact hne (h.inj name' name id hid' hold)
  case inj =>
    intro name' name'' id hid hid'
    exact h.inj name' name'' id (hget name' id hid).2 (hget name'' id hid').2
  case retiring =>
    intro id hid
    rcases (hmem id).mp hid with hret | hold
    · exact h.retiring id hret
    · exact ⟨(h.names name id hold).1, (h.names name id hold).2.1⟩
  case nodup =>
    cases hold : s.rowAdapters.get name with
    | none => simpa using h.nodup
    | some id => simpa using h.nodup.concat (h.names name id hold).2.2
  case live =>
    intro group hg id hid
    rcases h.live group hg id hid with hret | ⟨name', hname'⟩
    · exact .inl ((hmem id).mpr (.inl hret))
    · by_cases hne : name' = name
      · exact .inl ((hmem id).mpr (.inr (hne ▸ hname')))
      · exact .inr ⟨name', by rw [hnames name' hne, hname']⟩

/-- A freshly loaded adapter can take a free name. -/
theorem Rows.load {name : String} {names : Map String ℕ} (h : Rows s)
    (hname : s.rowAdapters.get name = none)
    (hnames : ∀ name', names.get name' =
      if name' = name then some s.backend.nextRowAdapter else s.rowAdapters.get name') :
    Rows { s with
      rowAdapters := names
      backend := { s.backend with
        rowAdapters := s.backend.nextRowAdapter :: s.backend.rowAdapters
        nextRowAdapter := s.backend.nextRowAdapter + 1 } } := by
  have hfresh : ∀ id ∈ s.backend.rowAdapters, id ≠ s.backend.nextRowAdapter :=
    fun id hid => (h.lt_next id hid).ne
  have hget : ∀ name' id, names.get name' = some id →
      (name' = name ∧ id = s.backend.nextRowAdapter) ∨ s.rowAdapters.get name' = some id := by
    intro name' id hid
    rw [hnames] at hid
    split at hid
    · next heq => exact .inl ⟨heq, (Option.some.inj hid).symm⟩
    · exact .inr hid
  constructor
  case next_pos => exact Nat.succ_pos _
  case nodup => exact h.nodup
  case live_ne_base => exact h.live_ne_base
  case lt_next =>
    intro id hid
    rcases mem_cons.mp hid with rfl | hid
    · exact Nat.lt_succ_self _
    · exact (h.lt_next id hid).trans (Nat.lt_succ_self _)
  case names =>
    intro name' id hid
    rcases hget name' id hid with ⟨-, rfl⟩ | hid
    · exact ⟨h.next_pos, mem_cons_self, fun hret => hfresh _ (h.retiring _ hret).2 rfl⟩
    · obtain ⟨hpos, hloaded, hnot⟩ := h.names name' id hid
      exact ⟨hpos, mem_cons_of_mem _ hloaded, hnot⟩
  case inj =>
    intro name' name'' id hid hid'
    rcases hget name' id hid with ⟨heq, hnew⟩ | hold <;>
      rcases hget name'' id hid' with ⟨heq', hnew'⟩ | hold'
    · exact heq.trans heq'.symm
    · exact absurd hnew (hfresh id (h.names name'' id hold').2.1)
    · exact absurd hnew' (hfresh id (h.names name' id hold).2.1)
    · exact h.inj name' name'' id hold hold'
  case retiring =>
    intro id hid
    obtain ⟨hpos, hloaded⟩ := h.retiring id hid
    exact ⟨hpos, mem_cons_of_mem _ hloaded⟩
  case live =>
    intro group hg id hid
    rcases h.live group hg id hid with hret | ⟨name', hname'⟩
    · exact .inl hret
    · refine .inr ⟨name', ?_⟩
      show names.get name' = some id
      rw [hnames, if_neg, hname']
      rintro rfl
      rw [hname] at hname'
      cases hname'

/-- An operation on the adapters keeps the pool, whether it fails or not. -/
def RenamedTo (w : World) (H : List ℕ) (s s' : Scheduler) : Prop :=
  ∃ P', Pool w H P' s' ∧ Renamed H s s'

theorem unloadAdapter_spec (h : Pool w H P s) (name : String) :
    wp (unloadAdapter w name) (fun _ s' => RenamedTo w H s s')
      (fun stop s' => (∃ error, stop = .error error) ∧ RenamedTo w H s s') s := by
  unfold unloadAdapter
  rw [wp_bind, wp_get]
  cases hget : s.rowAdapters.get name with
  | none => exact ⟨⟨_, rfl⟩, P, h, Upkeep.refl H s⟩
  | some id =>
    rw [wp_bind, wp_modify]
    have hrows := @Rows.rename s (s.rowAdapters.erase name) h.rows name
      (fun name' hne => Map.get_erase_of_ne _ hne) (Map.get_erase_self _ _)
    rw [hget] at hrows
    have h₁ : Pool w H P { s with
        rowAdapters := s.rowAdapters.erase name
        unloadedAdapters := name :: s.unloadedAdapters
        retiring := s.retiring ++ [id] } := h.congr rfl rfl rfl rfl rfl rfl
      (hrows.congr rfl rfl rfl rfl rfl)
    have hkept : ∀ s', Kept w H P { s with
        rowAdapters := s.rowAdapters.erase name
        unloadedAdapters := name :: s.unloadedAdapters
        retiring := s.retiring ++ [id] } s' → RenamedTo w H s s' := by
      rintro s' ⟨P', h', hu, -⟩
      refine ⟨P', h', ?_⟩
      rw [Renamed, hu.rowAdapters, hu.unloadedAdapters]
      exact { hu with }
    refine wp_mono (releaseRetired_spec h₁) ?_ ?_
    · exact fun _ s' hk => hkept s' hk
    · exact fun _ s' hf => ⟨hf.1, hkept s' hf.2.2⟩

/-- Taking a name away and retiring its adapter, then whatever `s₁` changed beside. -/
private theorem retire_renamed {s₁ : Scheduler} {name : String}
    (h : Pool w H P { s₁ with retiring := s₁.retiring ++ (s.rowAdapters.get name).toList })
    (hu : Renamed H s s₁) :
    wp (retire w (s.rowAdapters.get name)) (fun _ s' => RenamedTo w H s s')
      (fun stop s' => (∃ error, stop = .error error) ∧ RenamedTo w H s s') s₁ := by
  have hkept : ∀ s', Kept w H P s₁ s' → RenamedTo w H s s' := by
    rintro s' ⟨P', h', hu', -⟩
    refine ⟨P', h', ?_⟩
    rw [Renamed, hu'.rowAdapters, hu'.unloadedAdapters]
    exact Upkeep.trans hu hu'
  refine wp_mono (retire_spec h) ?_ ?_
  · exact fun _ s' hk => hkept s' hk
  · exact fun _ s' hf => ⟨hf.1, hkept s' hf.2.2⟩

/-- Only the adapters and the calls differ. -/
private theorem Renamed.of_rows (rowAdapters : Map String ℕ) (unloadedAdapters : List String)
    (adapters : List String) (loaded : List ℕ) (next calls : ℕ) :
    Renamed H s { s with
      rowAdapters, unloadedAdapters
      backend := { s.backend with
        adapters, rowAdapters := loaded, nextRowAdapter := next, calls } } :=
  ⟨⟨⟨rfl, rfl, rfl, rfl, rfl, rfl, rfl, rfl, rfl, rfl, rfl, rfl⟩, rfl, rfl, rfl, fun _ _ => rfl,
    fun _ => .inl rfl⟩, fun _ _ h => ⟨h, rfl⟩⟩

theorem loadAdapter_spec (h : Pool w H P s) (name : String) :
    wp (loadAdapter w name) (fun _ s' => RenamedTo w H s s')
      (fun stop s' => (∃ error, stop = .error error) ∧ RenamedTo w H s s') s := by
  unfold loadAdapter
  rw [wp_ite]
  refine ⟨fun _ => ⟨⟨_, rfl⟩, P, h, Upkeep.refl H s⟩, fun _ => ?_⟩
  have hrows := @Rows.rename s (s.rowAdapters.erase name) h.rows name
    (fun name' hne => Map.get_erase_of_ne _ hne) (Map.get_erase_self _ _)
  have hserial : ∀ s₁, Quiet s s₁ → wp (do
      invoke w (Backend.loadAdapter name)
      let old := (← get).rowAdapters.get name
      modify fun s => { s with
        unloadedAdapters := s.unloadedAdapters.filter (· ≠ name)
        rowAdapters := s.rowAdapters.erase name }
      retire w old) (fun _ s' => RenamedTo w H s s')
      (fun stop s' => (∃ error, stop = .error error) ∧ RenamedTo w H s s') s₁ := by
    intro s₁ hq
    have h₁ := h.quiet hq
    obtain ⟨calls₁, rfl⟩ := hq
    rw [wp_bind]
    refine wp_invoke (fun stop s' hf => ?_) (fun calls a b hb => ?_) fun calls error b hb => ?_
    · obtain ⟨herror, -, calls, rfl⟩ := hf
      exact ⟨herror, P, h₁.quiet ⟨calls, rfl⟩, Renamed.of_rows ..⟩
    · cases hb
      simp only [wp_bind, wp_get, wp_modify]
      exact retire_renamed (h.congr rfl rfl rfl rfl rfl rfl
        (hrows.congr rfl rfl rfl rfl rfl)) (Renamed.of_rows ..)
    · cases hb
  dsimp only
  rw [wp_ite]
  refine ⟨fun _ => ?_, fun _ => hserial s (Quiet.refl s)⟩
  rw [wp_bind]
  refine wp_attempt (wp_invoke (fun stop s' hf => ?_) (fun calls a b hb => ?_)
    fun calls error b hb => ?_)
  · obtain ⟨⟨error, rfl⟩, -, hq⟩ := hf
    exact hserial s' hq
  · simp only [Backend.loadRowAdapter] at hb
    split at hb <;> cases hb
    simp only [wp_bind, wp_get, wp_modify]
    have hload := @Rows.load _ name (s.rowAdapters.insert name s.backend.nextRowAdapter) hrows
      (Map.get_erase_self _ _)
      fun name' => by
        show (s.rowAdapters.insert name s.backend.nextRowAdapter).get name'
          = if name' = name then _ else (s.rowAdapters.erase name).get name'
        rw [Map.get_insert]
        split
        · rfl
        · next hne => rw [Map.get_erase_of_ne _ hne]
    exact retire_renamed (h.congr rfl rfl rfl rfl rfl rfl
      (hload.congr rfl rfl rfl rfl rfl)) (Renamed.of_rows ..)
  · simp only [Backend.loadRowAdapter] at hb
    split at hb <;> cases hb
    exact hserial _ ⟨calls, rfl⟩

end Retrograd.Infer
