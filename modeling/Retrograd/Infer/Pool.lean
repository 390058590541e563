import Retrograd.Infer.KvRemove
import Retrograd.Infer.Calls

/-!
# The slot pool

`Pool w H P s` relates the three places that speak about slots: the prefix tree, the backend and
the slots `H` that somebody else **holds** (live members, or slots about to be released). A slot
has at most one owner among the tree's nodes, and none that is held. When no call but `step`
fails, a dormant slot holds exactly its node's path and a slot without owner is empty.

The programs around the tree keep the pool and touch nothing else: they never change a held
slot, and otherwise only empty slots and forget nodes (`Upkeep`).
-/

namespace Retrograd.Infer

open Logic List

/-- What the cells of a namespace are computed under. -/
def nsTag (active : Option String) (ns : Namespace) : Tag :=
  if ns = 0 then .context active else .row ns

/-- The per-row adapters: every id in use is loaded, positive, and either named by one name, or
retiring, and never both. -/
structure Rows (s : Scheduler) : Prop where
  next_pos : 0 < s.backend.nextRowAdapter
  lt_next : ∀ id ∈ s.backend.rowAdapters, id < s.backend.nextRowAdapter
  names : ∀ name id, s.rowAdapters.get name = some id →
    0 < id ∧ id ∈ s.backend.rowAdapters ∧ id ∉ s.retiring
  inj : ∀ name name' id, s.rowAdapters.get name = some id → s.rowAdapters.get name' = some id →
    name = name'
  retiring : ∀ id ∈ s.retiring, 0 < id ∧ id ∈ s.backend.rowAdapters
  nodup : s.retiring.Nodup
  live : ∀ group ∈ s.live, ∀ id, group.adapter = .loaded id →
    id ∈ s.retiring ∨ ∃ name, s.rowAdapters.get name = some id
  live_ne_base : ∀ group ∈ s.live, group.adapter ≠ .base

/-- Who owns which slot: a node of the tree, or whoever holds the slots `H`, or nobody. -/
structure Owners (w : World) (H : List ℕ) (P : Labels) (s : Scheduler) : Prop where
  stores : s.kv.Stores P
  nSlots : s.nSlots = w.nSlots
  slot_lt : ∀ i σ, (s.kv.nodes i).slot = some σ → σ < w.nSlots
  slot_inj : ∀ i j σ, (s.kv.nodes i).slot = some σ → (s.kv.nodes j).slot = some σ → i = j
  slot_free : ∀ i σ, (s.kv.nodes i).slot = some σ → σ ∉ H
  key_le : ∀ k, s.kvKey = some k → k.weightsVersion ≤ s.backend.weightsVersion
  rows : Rows s
  empty : w.Reliable → ∀ σ, σ < w.nSlots → σ ∉ H → (∀ i, (s.kv.nodes i).slot ≠ some σ) →
    s.backend.slots σ = []

/-- The tree, the backend and the held slots `H` agree. -/
structure Pool (w : World) (H : List ℕ) (P : Labels) (s : Scheduler) : Prop
    extends Owners w H P s where
  content : w.Reliable → ∀ i ns p σ, P i = some (ns, p) → (s.kv.nodes i).slot = some σ →
    contents (s.backend.slots σ) = tagged (nsTag s.backend.activeAdapter ns) p
  saved : w.Reliable → ∀ i ns p snap, P i = some (ns, p) → (s.kv.nodes i).snapshot = some snap →
    snap.contents = tagged (nsTag s.backend.activeAdapter ns) p

/-- The parts of the scheduler beside its tree, its adapters' activation and its backend. -/
structure Beside (s s' : Scheduler) : Prop where
  options : s'.options = s.options
  queue : s'.queue = s.queue
  live : s'.live = s.live
  nextRequestId : s'.nextRequestId = s.nextRequestId
  out : s'.out = s.out
  decodeCursor : s'.decodeCursor = s.decodeCursor
  prefillTurn : s'.prefillTurn = s.prefillTurn
  rowAdapters : s'.rowAdapters = s.rowAdapters
  unloadedAdapters : s'.unloadedAdapters = s.unloadedAdapters
  streams : s'.streams = s.streams
  nextStream : s'.nextStream = s.nextStream
  inHand : s'.inHand = s.inHand

theorem Beside.refl (s : Scheduler) : Beside s s :=
  ⟨rfl, rfl, rfl, rfl, rfl, rfl, rfl, rfl, rfl, rfl, rfl, rfl⟩

variable {s s' s'' : Scheduler}

theorem Beside.trans (h : Beside s s') (h' : Beside s' s'') : Beside s s'' where
  options := h'.options.trans h.options
  queue := h'.queue.trans h.queue
  live := h'.live.trans h.live
  nextRequestId := h'.nextRequestId.trans h.nextRequestId
  out := h'.out.trans h.out
  decodeCursor := h'.decodeCursor.trans h.decodeCursor
  prefillTurn := h'.prefillTurn.trans h.prefillTurn
  rowAdapters := h'.rowAdapters.trans h.rowAdapters
  unloadedAdapters := h'.unloadedAdapters.trans h.unloadedAdapters
  streams := h'.streams.trans h.streams
  nextStream := h'.nextStream.trans h.nextStream
  inHand := h'.inHand.trans h.inHand

/-- What a program around the tree leaves alone: everything but the tree, the counters, the calls
and the slots that are not in `H`, which it may empty. -/
structure Frame (H : List ℕ) (s s' : Scheduler) : Prop extends Beside s s' where
  activeAdapter : s'.activeAdapter = s.activeAdapter
  active : s'.backend.activeAdapter = s.backend.activeAdapter
  version : s'.backend.weightsVersion = s.backend.weightsVersion
  kept : ∀ σ ∈ H, s'.backend.slots σ = s.backend.slots σ
  emptied : ∀ σ, s'.backend.slots σ = s.backend.slots σ ∨ s'.backend.slots σ = []

theorem Frame.refl (H : List ℕ) (s : Scheduler) : Frame H s s :=
  ⟨Beside.refl s, rfl, rfl, rfl, fun _ _ => rfl, fun _ => .inl rfl⟩

variable {H : List ℕ}

theorem Frame.trans (h : Frame H s s') (h' : Frame H s' s'') : Frame H s s'' where
  toBeside := h.toBeside.trans h'.toBeside
  activeAdapter := h'.activeAdapter.trans h.activeAdapter
  active := h'.active.trans h.active
  version := h'.version.trans h.version
  kept σ hσ := (h'.kept σ hσ).trans (h.kept σ hσ)
  emptied σ := by
    rcases h'.emptied σ with h' | h'
    · rw [h']
      exact h.emptied σ
    · exact .inr h'

/-- Fewer held slots ask for less to be kept. -/
theorem Frame.mono {H H' : List ℕ} {s s' : Scheduler} (h : Frame H s s')
    (hsub : ∀ σ ∈ H', σ ∈ H) : Frame H' s s' :=
  { h with kept := fun σ hσ => h.kept σ (hsub σ hσ) }

/-- What the upkeep programs may change: beside what every frame allows, they only take slots
away from nodes. -/
structure Upkeep (H : List ℕ) (s s' : Scheduler) : Prop extends Frame H s s' where
  resident : ∀ i σ, (s'.kv.nodes i).slot = some σ →
    (s.kv.nodes i).slot = some σ ∧ (s'.kv.nodes i).depth = (s.kv.nodes i).depth

theorem Upkeep.refl (H : List ℕ) (s : Scheduler) : Upkeep H s s :=
  ⟨Frame.refl H s, fun _ _ h => ⟨h, rfl⟩⟩

theorem Upkeep.trans (h : Upkeep H s s') (h' : Upkeep H s' s'') : Upkeep H s s'' where
  toFrame := h.toFrame.trans h'.toFrame
  resident i σ hi := by
    obtain ⟨hi', hd'⟩ := h'.resident i σ hi
    obtain ⟨hi, hd⟩ := h.resident i σ hi'
    exact ⟨hi, hd'.trans hd⟩

theorem Upkeep.mono {H H' : List ℕ} {s s' : Scheduler} (h : Upkeep H s s')
    (hsub : ∀ σ ∈ H', σ ∈ H) : Upkeep H' s s' :=
  ⟨h.toFrame.mono hsub, h.resident⟩

/-- A pool reached by upkeep, whose tree stores no new path. -/
def Kept (w : World) (H : List ℕ) (P : Labels) (s s' : Scheduler) : Prop :=
  ∃ P', Pool w H P' s' ∧ Upkeep H s s' ∧ PrefixTree.Extends P' P

/-- How an upkeep program fails: with an error, only in an unreliable world, the pool kept. -/
def Fails (w : World) (H : List ℕ) (P : Labels) (s : Scheduler) (stop : Stop) (s' : Scheduler) :
    Prop :=
  (∃ error, stop = .error error) ∧ ¬w.Reliable ∧ Kept w H P s s'

theorem Kept.trans {w : World} {P P' : Labels} (hu : Upkeep H s s') (he : PrefixTree.Extends P' P)
    (h : Kept w H P' s' s'') : Kept w H P s s'' := by
  obtain ⟨P'', hp, hu', he'⟩ := h
  exact ⟨P'', hp, hu.trans hu', he'.trans he⟩

theorem Fails.trans {w : World} {P P' : Labels} {stop : Stop} (hu : Upkeep H s s')
    (he : PrefixTree.Extends P' P) (h : Fails w H P' s' stop s'') : Fails w H P s stop s'' :=
  ⟨h.1, h.2.1, h.2.2.trans hu he⟩

/-! ### What is no part of the pool -/

variable {w : World} {H : List ℕ} {P P' : Labels} {s s' s'' : Scheduler}

/-- Calls, time and counters are no part of the pool. -/
theorem Pool.congr (h : Pool w H P s) (hkv : s'.kv = s.kv) (hn : s'.nSlots = s.nSlots)
    (hkey : s'.kvKey = s.kvKey) (hslots : s'.backend.slots = s.backend.slots)
    (hversion : s'.backend.weightsVersion = s.backend.weightsVersion)
    (hactive : s'.backend.activeAdapter = s.backend.activeAdapter) (hrows : Rows s') :
    Pool w H P s' where
  stores := hkv ▸ h.stores
  nSlots := hn.trans h.nSlots
  slot_lt := by rw [hkv]; exact h.slot_lt
  slot_inj := by rw [hkv]; exact h.slot_inj
  slot_free := by rw [hkv]; exact h.slot_free
  key_le := by rw [hkey, hversion]; exact h.key_le
  rows := hrows
  content := by rw [hkv, hslots, hactive]; exact h.content
  saved := by rw [hkv, hactive]; exact h.saved
  empty := by rw [hkv, hslots]; exact h.empty

theorem Rows.congr (h : Rows s) (hnext : s'.backend.nextRowAdapter = s.backend.nextRowAdapter)
    (hloaded : s'.backend.rowAdapters = s.backend.rowAdapters)
    (hnames : s'.rowAdapters = s.rowAdapters) (hretiring : s'.retiring = s.retiring)
    (hlive : s'.live = s.live) : Rows s' where
  next_pos := hnext ▸ h.next_pos
  lt_next := by rw [hnext, hloaded]; exact h.lt_next
  names := by rw [hnames, hloaded, hretiring]; exact h.names
  inj := by rw [hnames]; exact h.inj
  retiring := by rw [hretiring, hloaded]; exact h.retiring
  nodup := hretiring ▸ h.nodup
  live := by rw [hlive, hretiring, hnames]; exact h.live
  live_ne_base := by rw [hlive]; exact h.live_ne_base

theorem Pool.quiet (h : Pool w H P s) (hq : Quiet s s') : Pool w H P s' := by
  obtain ⟨calls, rfl⟩ := hq
  exact h.congr rfl rfl rfl rfl rfl rfl (h.rows.congr rfl rfl rfl rfl rfl)

theorem Upkeep.quiet (hq : Quiet s s') : Upkeep H s s' := by
  obtain ⟨calls, rfl⟩ := hq
  exact { Upkeep.refl H s with }

theorem Kept.refl (h : Pool w H P s) : Kept w H P s s :=
  ⟨P, h, Upkeep.refl H s, PrefixTree.Extends.refl P⟩

theorem Kept.quiet (h : Pool w H P s) (hq : Quiet s s') : Kept w H P s s' :=
  ⟨P, h.quiet hq, Upkeep.quiet hq, PrefixTree.Extends.refl P⟩

theorem QuietFails.fails {stop : Stop} (hf : QuietFails w s stop s') (h : Pool w H P s) :
    Fails w H P s stop s' :=
  ⟨hf.1, hf.2.1, Kept.quiet h hf.2.2⟩

/-- In an unreliable world the owners of the slots are all there is to say. -/
theorem Owners.pool (h : Owners w H P s) (hw : ¬w.Reliable) : Pool w H P s :=
  { h with
    content := fun hw' => absurd hw' hw
    saved := fun hw' => absurd hw' hw }

/-! ### Held slots -/

variable {L : List ℕ}

/-- Held slots can be given up when they are empty. -/
theorem Pool.release (h : Pool w (L ++ H) P s)
    (hempty : w.Reliable → ∀ σ ∈ L, σ ∉ H → s.backend.slots σ = []) : Pool w H P s :=
  { h with
    slot_free := fun i τ hi hτ => h.slot_free i τ hi (mem_append_right L hτ)
    empty := fun hw τ hτ hH hno => by
      by_cases hτL : τ ∈ L
      · exact hempty hw τ hτL hH
      · exact h.empty hw τ hτ (by simp [hτL, hH]) hno }

/-- Only membership among the held slots matters. -/
theorem Pool.held {H' : List ℕ} (h : Pool w H P s) (hH : ∀ σ, σ ∈ H' ↔ σ ∈ H) :
    Pool w H' P s :=
  { h with
    slot_free := fun i τ hi hτ => h.slot_free i τ hi ((hH τ).mp hτ)
    empty := fun hw τ hτ hn => h.empty hw τ hτ fun hτ' => hn ((hH τ).mpr hτ') }

/-- Slots without owner can be held. -/
theorem Pool.hold (h : Pool w H P s) (hL : ∀ σ ∈ L, ∀ i, (s.kv.nodes i).slot ≠ some σ) :
    Pool w (L ++ H) P s :=
  { h with
    slot_free := fun i τ hi hτ => by
      rcases mem_append.mp hτ with hτ | hτ
      · exact hL τ hτ i hi
      · exact h.slot_free i τ hi hτ
    empty := fun hw τ hτ hn => h.empty hw τ hτ fun hτ' => hn (mem_append_right L hτ') }

theorem withSlot_slots (s : Scheduler) (σ : ℕ) (cells : List Cell) (next τ : ℕ) :
    (s.withSlot σ cells next).backend.slots τ = if τ = σ then cells else s.backend.slots τ :=
  Function.update_apply ..

/-- Writing a held slot changes nothing the pool says about the others. -/
theorem Pool.withSlot {σ : ℕ} (h : Pool w H P s) (hσ : σ ∈ H) (cells : List Cell) (next : ℕ) :
    Pool w H P (s.withSlot σ cells next) :=
  { h with
    rows := h.rows.congr rfl rfl rfl rfl rfl
    content := fun hw i ns p τ hi hslot => by
      rw [withSlot_slots, if_neg fun hτ : τ = σ => h.slot_free i τ hslot (hτ ▸ hσ)]
      exact h.content hw i ns p τ hi hslot
    empty := fun hw τ hτ hH hno => by
      rw [withSlot_slots, if_neg fun hτσ : τ = σ => hH (hτσ ▸ hσ)]
      exact h.empty hw τ hτ hH hno }

theorem Upkeep.withSlot_nil {σ : ℕ} (hσ : σ ∉ H) (next : ℕ) :
    Upkeep H s (s.withSlot σ [] next) :=
  { Upkeep.refl H s with
    kept := fun τ hτ => by
      rw [withSlot_slots, if_neg fun h : τ = σ => hσ (h ▸ hτ)]
    emptied := fun τ => by
      rw [withSlot_slots]
      by_cases hτ : τ = σ
      · exact .inr (if_pos hτ)
      · exact .inl (if_neg hτ) }

/-- Emptying the slots `L`, all held, gives them up. -/
theorem seqRm_list (h : Pool w (L ++ H) P s) (hlt : ∀ σ ∈ L, σ < w.nSlots) (hH : ∀ σ ∈ L, σ ∉ H) :
    wp (L.forM (seqRm w)) (fun _ s' => Pool w H P s' ∧ Upkeep H s s' ∧ s'.kv = s.kv ∧
      s'.kvKey = s.kvKey ∧ s'.retained = s.retained ∧ s'.retiring = s.retiring ∧
      s'.backend.rowAdapters = s.backend.rowAdapters ∧
      ∀ σ ∈ L, s'.backend.slots σ = []) (Fails w H P s) s := by
  have hloop : wp (L.forM (seqRm w)) (fun _ s' => (∀ σ ∈ L, σ ∈ ([] : List ℕ) ∨
      s'.backend.slots σ = []) ∧ Pool w (L ++ H) P s' ∧ Upkeep H s s' ∧ s'.kv = s.kv ∧
      s'.kvKey = s.kvKey ∧ s'.retained = s.retained ∧ s'.retiring = s.retiring ∧
      s'.backend.rowAdapters = s.backend.rowAdapters) (Fails w H P s) s := by
    refine wp_forM_list (fun rest s' => (∀ σ ∈ L, σ ∈ rest ∨ s'.backend.slots σ = []) ∧
      (∀ σ ∈ rest, σ ∈ L) ∧ Pool w (L ++ H) P s' ∧ Upkeep H s s' ∧ s'.kv = s.kv ∧
      s'.kvKey = s.kvKey ∧ s'.retained = s.retained ∧ s'.retiring = s.retiring ∧
      s'.backend.rowAdapters = s.backend.rowAdapters) ?_
      ⟨fun σ hσ => .inl hσ, fun σ hσ => hσ, h, Upkeep.refl H s, rfl, rfl, rfl, rfl, rfl⟩ |>
        fun h => wp_mono h (fun _ _ ⟨hd, _, hr⟩ => ⟨hd, hr⟩) fun _ _ hf => hf
    rintro σ rest s₁ ⟨hdone, hsub, h₁, hu₁, hkv, hkey, hret, hretiring, hrows⟩
    have hσ : σ ∈ L := hsub σ mem_cons_self
    refine wp_mono (seqRm_spec (hlt σ hσ)) ?_ ?_
    · rintro _ s₂ hq
      have h₂ := (h₁.withSlot (mem_append_left H hσ) [] s₁.backend.nextCell).quiet hq
      have hu₂ := (hu₁.trans (Upkeep.withSlot_nil (hH σ hσ) s₁.backend.nextCell)).trans
        (Upkeep.quiet hq)
      obtain ⟨calls, rfl⟩ := hq
      refine ⟨fun τ hτ => ?_, fun τ hτ => hsub τ (mem_cons_of_mem σ hτ), h₂, hu₂, hkv, hkey,
        hret, hretiring, hrows⟩
      show τ ∈ rest ∨ (s₁.withSlot σ [] s₁.backend.nextCell).backend.slots τ = []
      rw [withSlot_slots]
      have := hdone τ hτ
      rw [mem_cons] at this
      split
      · exact .inr rfl
      · next hne => exact this.imp_left fun h => h.resolve_left hne
    · intro stop s₂ hf
      obtain ⟨herror, hw, P₂, h₂, hu₂, he⟩ := hf.fails h₁
      exact ⟨herror, hw, P₂, h₂.release fun hw' => absurd hw' hw,
        hu₁.trans (hu₂.mono fun τ hτ => mem_append_right L hτ), he⟩
  refine wp_mono hloop ?_ fun _ _ hf => hf
  rintro _ s' ⟨hdone, h', hu, hkv, hkey, hret, hretiring, hrows⟩
  have hempty : ∀ σ ∈ L, s'.backend.slots σ = [] := fun σ hσ =>
    (hdone σ hσ).resolve_left not_mem_nil
  exact ⟨h'.release fun _ σ hσ _ => hempty σ hσ, hu, hkv, hkey, hret, hretiring, hrows, hempty⟩

end Retrograd.Infer
