import Retrograd.Infer.KvLookup

/-!
# Removal from the prefix tree

`remove` drops one node's payload and prunes what holds nothing any more; `dropNamespace` drops
the nodes of one namespace, which a walk from its root finds **all** of; pins are counted. Every
specification says what becomes of each node's slot and snapshot, so a caller knows exactly
which slots it is left to release.
-/

namespace Retrograd.Infer

open Logic List Option Function

namespace PrefixTree

variable {t t' : PrefixTree} {P P' : Labels} {ns : Namespace} {p q : List Token}
  {i j node child r : ℕ}

/-! ### Pruning -/

/-- A stored node that holds nothing, has no child and is not a root can be freed. -/
theorem freeLeaf_spec (h : Stores t P) (hi : P child = some (ns, p)) (hp : p ≠ [])
    (hleaf : ∀ a, (t.nodes child).children.get a = none) (hslot : (t.nodes child).slot = none)
    (hsnap : (t.nodes child).snapshot = none) (hpins : (t.nodes child).pins = 0) :
    Stores (t.freeLeaf child) (Function.update P child none) ∧
      SamePayload t (t.freeLeaf child) ∧
      ∃ p₀, Function.update P child none (t.nodes child).parent = some (ns, p₀) ∧
        p₀.length < p.length := by
  obtain ⟨p₀, a, hpar, hpath, hget⟩ := h.parent child ns p hi hp
  obtain ⟨-, -, hhead⟩ := h.child _ ns p₀ a child hpar hget
  have hedge := h.edge_ne_nil hi hp
  obtain ⟨par, hparEq⟩ : ∃ par, par = (t.nodes child).parent := ⟨_, rfl⟩
  rw [← hparEq] at hpar hget ⊢
  have hlen : p₀.length < p.length := by
    rw [hpath, length_append]
    have := length_pos_iff.mpr hedge
    omega
  have hne : par ≠ child := by
    rintro rfl
    rw [hpar] at hi
    cases hi
    exact lt_irrefl _ hlen
  obtain ⟨t', ht'⟩ : ∃ t', t' = t.freeLeaf child := ⟨_, rfl⟩
  have hnode : ∀ j, t'.nodes j = if j = child then {} else if j = par then
      { t.nodes par with children := (t.nodes par).children.erase a } else t.nodes j := by
    intro j
    by_cases hj : j = child
    · simp [ht', freeLeaf, hj]
    · by_cases hj' : j = par <;> simp [ht', freeLeaf, hj, hj', hhead, ← hparEq]
  have hroots : ∀ ns', t'.root ns' = t.root ns' := fun ns' => by rw [ht']; rfl
  have hlen' : t'.len = t.len := by rw [ht']; rfl
  have hfree : t'.free = child :: t.free := by rw [ht']; rfl
  have hpinsEq : t'.pins = t.pins := by rw [ht']; rfl
  have hnext : t'.nextPin = t.nextPin := by rw [ht']; rfl
  have hclock : t'.clock = t.clock := by rw [ht']; rfl
  have hbytes : t'.snapshotBytes = t.snapshotBytes := by rw [ht']; rfl
  rw [← ht']
  clear ht'
  obtain ⟨hlt, hnotFree⟩ := (h.dom child).mp (by rw [hi]; rfl)
  refine ⟨?_, ?_, p₀, by rw [update_of_ne hne, hpar], hlen⟩
  · constructor
    case dom =>
      intro j
      have := h.dom j
      simp only [hlen', hfree, update_apply]
      grind
    case blank =>
      intro j hj
      have := h.blank j
      simp only [update_apply] at hj
      grind
    case free_lt =>
      intro j hj
      have := h.free_lt j
      grind
    case free_nodup =>
      rw [hfree, nodup_cons]
      exact ⟨hnotFree, h.free_nodup⟩
    case root_iff =>
      intro ns' j
      have := h.root_iff ns' j
      simp only [hroots, update_apply]
      grind
    case root_blank =>
      intro j ns' hj
      have := h.root_blank j ns'
      simp only [update_apply] at hj
      grind
    case edge_nil =>
      intro j ns' q hj
      have := h.edge_nil j ns' q
      simp only [update_apply] at hj
      grind
    case depth_eq =>
      intro j ns' q hj
      have := h.depth_eq j ns' q
      simp only [update_apply] at hj
      grind
    case child =>
      intro j ns' q b c hj hc
      have := h.child j ns' q b c
      simp only [update_apply] at hj ⊢
      grind [Map.get_erase]
    case parent =>
      intro c ns' q hc hq
      simp only [update_apply] at hc ⊢
      split at hc
      · cases hc
      · next hcc =>
        obtain ⟨p', b, hp', hq', hget'⟩ := h.parent c ns' q hc hq
        refine ⟨p', b, ?_⟩
        grind [Map.get_erase]
    case pins_count =>
      intro j
      have := h.pins_count j
      rw [hpinsEq]
      grind
    case pin_lt =>
      rw [hpinsEq, hnext]
      exact h.pin_lt
  · refine ⟨?_, ?_, ?_, hpinsEq, hnext, hclock, hbytes⟩ <;>
      · intro j
        grind

/-- Pruning ends at the root at the latest, frees only paths that hold nothing, and changes no
payload. -/
theorem prune_spec (fuel : ℕ) : ∀ {t : PrefixTree} {P : Labels} {child : ℕ} {p : List Token},
    Stores t P → P child = some (ns, p) → p.length < fuel →
    ∃ t' P', prune fuel t child = some t' ∧ Stores t' P' ∧ Extends P' P ∧ SamePayload t t' := by
  induction fuel with
  | zero => intro t P child p _ _ hfuel; omega
  | succ fuel ih =>
    intro t P child p h hi hfuel
    unfold prune
    dsimp only
    split
    · exact ⟨t, P, rfl, h, Extends.refl P, SamePayload.refl t⟩
    · next hroot =>
      split
      · exact ⟨t, P, rfl, h, Extends.refl P, SamePayload.refl t⟩
      · next hheld =>
        simp only [Bool.or_eq_true, Bool.not_eq_true', decide_eq_true_eq, not_or, not_lt,
          Nat.le_zero, Bool.not_eq_false, List.isEmpty_iff, Map.entries_eq_nil,
          Bool.not_eq_true, isSome_eq_false_iff, isNone_iff_eq_none] at hheld
        obtain ⟨⟨⟨hleaf, hslot⟩, hsnap⟩, hpins⟩ := hheld
        obtain ⟨hs, hsame, p₀, hpar, hlen⟩ := freeLeaf_spec h hi
          (fun hp => hroot ((h.isRoot_iff hi).mpr hp)) hleaf hslot hsnap hpins
        obtain ⟨t', P', heq, hs', hext, hsame'⟩ := ih hs hpar (by omega)
        refine ⟨t', P', heq, hs', hext.trans fun j l hj => ?_, hsame.trans hsame'⟩
        rw [update_apply] at hj
        split at hj
        · cases hj
        · exact hj

/-- What an operation that drops one node's payload leaves at every node. -/
structure Dropped (t t' : PrefixTree) (node : ℕ) : Prop where
  slot : ∀ i, (t'.nodes i).slot = if i = node then none else (t.nodes i).slot
  snapshot : ∀ i, (t'.nodes i).snapshot = if i = node then none else (t.nodes i).snapshot
  nodePins : ∀ i, (t'.nodes i).pins = (t.nodes i).pins
  pins : t'.pins = t.pins
  nextPin : t'.nextPin = t.nextPin
  snapshotBytes : t'.snapshotBytes
    = t.snapshotBytes - (t.nodes node).snapshot.elim 0 Snapshot.size

/-- `remove` always ends, drops exactly the payload of its node, and keeps the invariant. -/
theorem remove_spec (h : Stores t P) (hi : P node = some (ns, p)) (hp : p ≠ []) :
    ∃ t' P', t.remove node = some t' ∧ Stores t' P' ∧ Extends P' P ∧ Dropped t t' node := by
  obtain ⟨bytes, hbytes⟩ : ∃ bytes, bytes =
    t.snapshotBytes - (t.nodes node).snapshot.elim 0 Snapshot.size := ⟨_, rfl⟩
  have hremove : t.remove node = prune (t.depth node + 1)
      { t.setNode node fun n => { n with snapshot := none, slot := none } with
        snapshotBytes := bytes } node := by
    unfold remove
    cases hsnap : (t.nodes node).snapshot <;> simp [hbytes, hsnap, depth]
  have hs : Stores { t.setNode node fun n => { n with snapshot := none, slot := none } with
      snapshotBytes := bytes } P :=
    (h.setPayload (f := fun n => { n with snapshot := none, slot := none }) hi hp
      fun _ => ⟨rfl, rfl, rfl, rfl, rfl⟩).congr rfl rfl rfl rfl rfl
        (fun _ => ⟨rfl, rfl, rfl, rfl, rfl⟩) fun _ _ => rfl
  have hdepth : t.depth node = p.length := h.depth_eq node ns p hi
  obtain ⟨t', P', heq, hs', hext, hsame⟩ := prune_spec (t.depth node + 1) hs hi (by omega)
  refine ⟨t', P', by rw [hremove, heq], hs', hext, fun i => ?_, fun i => ?_, fun i => ?_,
    hsame.pins, hsame.nextPin, by rw [hsame.snapshotBytes, hbytes]⟩
  · rw [hsame.slot]
    by_cases hin : i = node <;> simp [hin]
  · rw [hsame.snapshot]
    by_cases hin : i = node <;> simp [hin]
  · rw [hsame.nodePins]
    by_cases hin : i = node <;> simp [hin]

/-! ### Dropping a namespace -/

/-- What dropping the namespace `ns` leaves at every node. -/
structure NamespaceDropped (t t' : PrefixTree) (P : Labels) (ns : Namespace) (slots : List ℕ) :
    Prop where
  slot : ∀ i, (t'.nodes i).slot
    = if (P i).map Prod.fst = some ns then none else (t.nodes i).slot
  snapshot : ∀ i, (t'.nodes i).snapshot
    = if (P i).map Prod.fst = some ns then none else (t.nodes i).snapshot
  nodePins : ∀ i, (t'.nodes i).pins
    = if (P i).map Prod.fst = some ns then 0 else (t.nodes i).pins
  nextPin : t'.nextPin = t.nextPin
  slots : ∀ σ, σ ∈ slots ↔ ∃ i, (P i).map Prod.fst = some ns ∧ (t.nodes i).slot = some σ

/-- The walk from a root finds exactly the non-root nodes of its namespace. -/
theorem visit_root (h : Stores t P) (hr : P r = some (ns, [])) :
    ∃ dropped, t.visit t.len (t.nodes r).children.values.reverse = some dropped ∧
      dropped.Nodup ∧ ∀ i, i ∈ dropped ↔ ∃ q, P i = some (ns, q) ∧ q ≠ [] := by
  have hw : Walk t P ns [] r [] (t.nodes r).children.values.reverse := by
    refine ⟨?_, fun c hc => ?_, fun c hc => ?_⟩
    · rw [nil_append, nodup_reverse]
      exact h.values_nodup hr
    · exact .inl (h.mem_values hr (by simpa using hc)).2.1
    · obtain ⟨hpath, -, hlen⟩ := h.mem_values hr (c := c) (by simpa using hc)
      exact ⟨_, hpath, hlen⟩
  obtain ⟨dropped, hv, hnodup⟩ := visit_total h hr t.len hw (by simp)
  obtain ⟨hstack, hchildren⟩ := visit_closed t.len hv
  refine ⟨dropped, hv, by simpa using hnodup, fun i => ⟨fun hi => ?_, ?_⟩⟩
  · refine visit_induct (Q := fun x => ∃ q, P x = some (ns, q) ∧ q ≠ []) ?_ t.len hv ?_ i hi
    · rintro x ⟨q, hx, -⟩ c hc
      obtain ⟨hpath, -, hlen⟩ := h.mem_values hx hc
      exact ⟨_, hpath, ne_nil_of_length_pos (by omega)⟩
    · intro c hc
      obtain ⟨hpath, -, hlen⟩ := h.mem_values hr (c := c) (by simpa using hc)
      exact ⟨_, hpath, ne_nil_of_length_pos hlen⟩
  -- a node is visited because its parent is, and the root's children are stacked
  · rintro ⟨q, hi, hq⟩
    induction hlen : q.length using Nat.strong_induction_on generalizing i q with
    | _ n ih =>
      obtain ⟨p, a, hpar, hpath, hget⟩ := h.parent i ns q hi hq
      have hmem := Map.mem_values.mpr ⟨a, hget⟩
      by_cases hp : p = []
      · have hroot : (t.nodes i).parent = r := by
          have hsame := (h.root_iff ns _).mpr (hp ▸ hpar)
          rw [(h.root_iff ns r).mpr hr] at hsame
          exact (some.inj hsame).symm
        rw [hroot] at hmem
        exact hstack i (mem_reverse.mpr hmem)
      · have hedge := length_pos_iff.mpr (h.edge_ne_nil hi hq)
        refine hchildren _ (ih p.length ?_ _ p hpar hp rfl) i hmem
        rw [← hlen, hpath, length_append]
        omega

/-- Every stored node hangs below a root of its namespace. -/
theorem exists_root (h : Stores t P) (hi : P i = some (ns, q)) : ∃ r, t.root ns = some r := by
  induction hlen : q.length using Nat.strong_induction_on generalizing i q with
  | _ n ih =>
    by_cases hq : q = []
    · subst hq
      exact ⟨i, (h.root_iff ns i).mpr hi⟩
    · obtain ⟨p, a, hpar, hpath, -⟩ := h.parent i ns q hi hq
      have hedge := length_pos_iff.mpr (h.edge_ne_nil hi hq)
      refine ih p.length ?_ hpar rfl
      rw [← hlen, hpath, length_append]
      omega

/-- The pins left after the nodes `dropped` are gone count the pins of the others. -/
theorem count_dropNodes (h : Stores t P) (dropped : List ℕ) (i : ℕ) :
    (t.dropNodes dropped).pins.count i = if i ∈ dropped then 0 else (t.nodes i).pins := by
  split
  · next hi =>
    refine Nat.eq_zero_of_not_pos fun hpos => ?_
    obtain ⟨id, hget⟩ := Map.count_pos.mp hpos
    have hne := (Map.get_filter.mp hget).2
    simp [hi] at hne
  · next hi =>
    rw [h.pins_count i, show (t.dropNodes dropped).pins.count i = _ from
      Map.count_filter fun id hget => ?_]
    have hpos := Map.count_pos.mpr ⟨id, hget⟩
    rw [← h.pins_count i] at hpos
    simp only [hi, if_false, bne_iff_ne]
    omega

/-- Dropping a namespace always ends, leaves no node of it but the root of namespace 0, and
returns exactly the slots its nodes owned. -/
theorem dropNamespace_spec (h : Stores t P) (ns : Namespace) :
    ∃ t' slots P', t.dropNamespace ns = some (t', slots) ∧ Stores t' P' ∧ Extends P' P ∧
      (∀ i q, P' i = some (ns, q) → q = []) ∧ NamespaceDropped t t' P ns slots := by
  cases hroot : t.root ns with
  | none =>
    have hno : ∀ i q, P i ≠ some (ns, q) := fun i q hi => by
      obtain ⟨r, hr⟩ := exists_root h hi
      rw [hroot] at hr
      cases hr
    have hno' : ∀ i, (P i).map Prod.fst ≠ some ns := fun i hi => by
      obtain ⟨⟨ns', q⟩, hl, rfl⟩ := map_eq_some_iff.mp hi
      exact hno i q hl
    exact ⟨t, [], P, by simp [dropNamespace, hroot], h, Extends.refl P,
      fun i q hi => absurd hi (hno i q), by simp [hno'], by simp [hno'], by simp [hno'], rfl,
      by simp [hno']⟩
  | some r =>
    have hr := (h.root_iff ns r).mp hroot
    obtain ⟨dropped, hv, hnodup, hmem⟩ := visit_root h hr
    have hns : ∀ i, (P i).map Prod.fst = some ns ↔ i ∈ dropped ∨ i = r := by
      intro i
      rw [hmem]
      constructor
      · intro hi
        obtain ⟨⟨ns', q⟩, hl, rfl⟩ := map_eq_some_iff.mp hi
        by_cases hq : q = []
        · subst hq
          have hsame := (h.root_iff _ i).mpr hl
          rw [hroot] at hsame
          exact .inr (some.inj hsame).symm
        · exact .inl ⟨q, hl, hq⟩
      · rintro (⟨q, hi, -⟩ | rfl)
        · rw [hi]; rfl
        · rw [hr]; rfl
    have hrDropped : r ∉ dropped := fun hmem' => by
      obtain ⟨q, hq, hne⟩ := (hmem r).mp hmem'
      rw [hr] at hq
      cases hq
      exact hne rfl
    have hrBlank := h.root_blank r ns hr
    have hcount := count_dropNodes h dropped
    obtain ⟨t', ht'⟩ : ∃ t', t' = if r = 0 then
        (t.dropNodes dropped).setNode r fun n => { n with children := ∅ }
      else
        { { (t.dropNodes dropped).setNode r (fun n => { n with children := ∅ }) with
            roots := t.roots.erase ns }.setNode r fun _ => {} with
          free := r :: (dropped.reverse ++ t.free) } := ⟨_, rfl⟩
    obtain ⟨slots, hslots⟩ : ∃ slots, slots = dropped.filterMap fun i => (t.nodes i).slot :=
      ⟨_, rfl⟩
    have hdrop : t.dropNamespace ns = some (t', slots) := by
      simp only [dropNamespace, hroot, hv, map_some, some.injEq, ht', hslots]
      split <;> rfl
    have hnode : ∀ j, t'.nodes j = if j ∈ dropped then {} else if j = r then
        (if r = 0 then { t.nodes r with children := ∅ } else {}) else t.nodes j := by
      intro j
      by_cases hj : j ∈ dropped
      · have hjr : j ≠ r := fun hjr => hrDropped (hjr ▸ hj)
        rw [ht']
        split <;> simp [dropNodes, hj, hjr]
      · by_cases hjr : j = r
        · have hkeep : (t.dropNodes dropped).nodes r = t.nodes r := by
            simp [dropNodes, hrDropped]
          rw [ht', hjr, if_neg hrDropped, if_pos rfl]
          split <;> simp [hkeep]
        · rw [ht']
          split <;> simp [dropNodes, hj, hjr]
    have hlen : t'.len = t.len := by rw [ht']; split <;> rfl
    have hfree : t'.free = if r = 0 then dropped.reverse ++ t.free
        else r :: (dropped.reverse ++ t.free) := by
      rw [ht']
      split <;> rfl
    have hpins : t'.pins = (t.dropNodes dropped).pins := by rw [ht']; split <;> rfl
    have hnext : t'.nextPin = t.nextPin := by rw [ht']; split <;> rfl
    have hrNs : r = 0 ↔ ns = 0 := by
      constructor
      · rintro rfl
        have hzero := (h.root_iff 0 0).mp (by simp [root])
        rw [hr] at hzero
        cases hzero
        rfl
      · rintro rfl
        simpa [root, eq_comm] using hroot
    have hroots : ∀ ns', t'.root ns' = if ns' = ns ∧ r ≠ 0 then none else t.root ns' := by
      intro ns'
      by_cases hr0 : r = 0
      · simp [ht', hr0, root, dropNodes, setNode]
      · have hns0 : ns ≠ 0 := fun hns0 => hr0 (hrNs.mpr hns0)
        by_cases hns' : ns' = ns
        · simp [ht', hr0, root, setNode, hns', hns0]
        · simp [ht', hr0, root, setNode, hns', Map.get_erase_of_ne]
    clear ht'
    refine ⟨t', slots, fun i => if i ∈ dropped ∨ i = r ∧ r ≠ 0 then none else P i, hdrop, ?_,
      fun i l hi => ?_, fun i q hi => ?_, ?_⟩
    · have hother : ∀ i ns' q, P i = some (ns', q) → ns' ≠ ns → i ∉ dropped ∧ i ≠ r := by
        intro i ns' q hi hne
        have := hns i
        grind
      have hsame : ∀ i q, P i = some (ns, q) → i ∈ dropped ∨ i = r := by
        intro i q hi
        exact (hns i).mp (by rw [hi]; rfl)
      constructor
      case dom =>
        intro j
        have := h.dom j
        have := hmem j
        grind
      case blank =>
        intro j hj
        have := h.blank j
        grind
      case free_lt =>
        intro j hj
        have := h.dom j
        have := h.free_lt j
        have := hmem j
        grind
      case free_nodup =>
        have hdisjoint : ∀ a ∈ dropped.reverse, ∀ b ∈ t.free, a ≠ b := by
          rintro a ha b hb rfl
          obtain ⟨q, hq, -⟩ := (hmem a).mp (mem_reverse.mp ha)
          exact ((h.dom a).mp (by rw [hq]; rfl)).2 hb
        have happend := nodup_append.mpr
          ⟨nodup_reverse.mpr hnodup, h.free_nodup, hdisjoint⟩
        have hrFree : r ∉ t.free := ((h.dom r).mp (by rw [hr]; rfl)).2
        rw [hfree]
        split
        · exact happend
        · rw [nodup_cons]
          exact ⟨by simp [hrDropped, hrFree], happend⟩
      case root_iff =>
        intro ns' j
        have := h.root_iff ns' j
        have := hother j ns' []
        have := hmem j
        simp only [hroots]
        grind
      case root_blank =>
        intro j ns' hj
        have := h.root_blank j ns'
        grind
      case edge_nil =>
        intro j ns' q hj
        have := h.edge_nil j ns' q
        grind
      case depth_eq =>
        intro j ns' q hj
        have := h.depth_eq j ns' q
        grind
      case child =>
        intro j ns' q a c hj hc
        have := h.child j ns' q a c
        have := hsame j q
        have := hother c ns' (q ++ (t.nodes c).edge)
        grind [Map.get_empty]
      case parent =>
        intro c ns' q hc hq
        have hc' : P c = some (ns', q) ∧ ns' ≠ ns := by
          have := hsame c q
          grind
        obtain ⟨p, a, hpar, hpath, hget⟩ := h.parent c ns' q hc'.1 hq
        refine ⟨p, a, ?_⟩
        have := hother c ns' q hc'.1 hc'.2
        have := hother _ ns' p hpar hc'.2
        grind
      case pins_count =>
        intro j
        have := h.pins_count j
        rw [hpins, hcount]
        grind
      case pin_lt =>
        intro id j hid
        rw [hpins] at hid
        rw [hnext]
        exact h.pin_lt id j (Map.get_filter.mp hid).1
    · dsimp only at hi
      split at hi
      · cases hi
      · exact hi
    · dsimp only at hi
      split at hi
      · cases hi
      · next hi' =>
        rcases (hns i).mp (by rw [hi]; rfl) with hd | rfl
        · exact absurd (.inl hd) hi'
        · rw [hr] at hi
          cases hi
          rfl
    · refine ⟨fun i => ?_, fun i => ?_, fun i => ?_, hnext, fun σ => ?_⟩
      · rw [hnode, if_congr (hns i) rfl rfl]
        grind
      · rw [hnode, if_congr (hns i) rfl rfl]
        grind
      · rw [hnode, if_congr (hns i) rfl rfl]
        grind
      · rw [hslots, mem_filterMap]
        grind

/-! ### Clearing the tree -/

theorem mem_residentSlots (h : Stores t P) {σ : ℕ} :
    σ ∈ t.residentSlots ↔ ∃ i, (t.nodes i).slot = some σ := by
  simp only [residentSlots, mem_filterMap, mem_range]
  constructor
  · rintro ⟨i, -, hi⟩
    exact ⟨i, hi⟩
  · rintro ⟨i, hi⟩
    exact ⟨i, h.lt_len_of_slot hi, hi⟩

theorem clear_spec (t : PrefixTree) : Stores t.clear.1 emptyLabels :=
  stores_empty rfl rfl rfl rfl rfl

/-! ### Pins -/

/-- What pinning or unpinning leaves at every node. -/
structure SameSlots (t t' : PrefixTree) : Prop where
  slot : ∀ i, (t'.nodes i).slot = (t.nodes i).slot
  snapshot : ∀ i, (t'.nodes i).snapshot = (t.nodes i).snapshot
  snapshotBytes : t'.snapshotBytes = t.snapshotBytes

theorem pinNode_spec (h : Stores t P) (hi : P node = some (ns, p)) (hp : p ≠ []) :
    Stores (t.pinNode node).1 P ∧ SameSlots t (t.pinNode node).1 := by
  have hfresh : t.pins.get t.nextPin = none := by
    by_contra hne
    obtain ⟨i, hget⟩ := ne_none_iff_exists'.mp hne
    exact lt_irrefl _ (h.pin_lt _ i hget)
  have hnode : ∀ j, ((t.pinNode node).1.nodes j) = if j = node then
      { t.nodes node with pins := (t.nodes node).pins + 1, lastUse := t.clock + 1 }
      else t.nodes j := by
    intro j
    by_cases hj : j = node <;> simp [pinNode, tick, setNode, hj]
  have hroot : ∀ ns', (t.pinNode node).1.root ns' = t.root ns' := fun _ => rfl
  refine ⟨?_, ?_⟩
  · constructor
    case dom => exact h.dom
    case free_lt => exact h.free_lt
    case free_nodup => exact h.free_nodup
    case root_iff => exact h.root_iff
    case blank =>
      intro j hj
      have := h.blank j hj
      grind
    case root_blank =>
      intro j ns' hj
      have := h.root_blank j ns' hj
      grind
    case edge_nil =>
      intro j ns' q hj
      have := h.edge_nil j ns' q hj
      grind
    case depth_eq =>
      intro j ns' q hj
      have := h.depth_eq j ns' q hj
      grind
    case child =>
      intro j ns' q a c hj hc
      have := h.child j ns' q a c hj
      grind
    case parent =>
      intro c ns' q hc hq
      obtain ⟨p', a, hpar, hpath, hget⟩ := h.parent c ns' q hc hq
      refine ⟨p', a, ?_⟩
      grind
    case pins_count =>
      intro j
      have hcount : (t.pinNode node).1.pins.count j = t.pins.count j + if node = j then 1 else 0 :=
        Map.count_insert hfresh j
      rw [hcount, hnode, ← h.pins_count j]
      grind
    case pin_lt =>
      intro id j hid
      have hid' : (t.pins.insert t.nextPin node).get id = some j := hid
      rw [Map.get_insert] at hid'
      show id < t.nextPin + 1
      split at hid'
      · next hid'' =>
        rw [hid'']
        exact Nat.lt_succ_self _
      · exact Nat.lt_succ_of_lt (h.pin_lt id j hid')
  · refine ⟨fun j => ?_, fun j => ?_, rfl⟩ <;>
      · rw [hnode]
        grind

theorem unpin_spec (h : Stores t P) (id : PinId) :
    Stores (t.unpin id).1 P ∧ SameSlots t (t.unpin id).1 := by
  unfold unpin
  cases hget : t.pins.get id with
  | none => exact ⟨h, fun _ => rfl, fun _ => rfl, rfl⟩
  | some node =>
    obtain ⟨t', ht'⟩ : ∃ t', t' = ({ t with pins := t.pins.erase id }.setNode node fun n =>
      { n with pins := n.pins - 1 }) := ⟨_, rfl⟩
    have hpos : 0 < (t.nodes node).pins := by
      rw [h.pins_count]
      exact Map.count_pos.mpr ⟨id, hget⟩
    obtain ⟨ns, p, hi, hp⟩ := h.ne_none_of_pins hpos
    have hnode : ∀ j, t'.nodes j = if j = node then
        { t.nodes node with pins := (t.nodes node).pins - 1 } else t.nodes j := by
      intro j
      by_cases hj : j = node <;> simp [ht', setNode, hj]
    have hpins : t'.pins = t.pins.erase id := by rw [ht']; rfl
    have hnext : t'.nextPin = t.nextPin := by rw [ht']; rfl
    show Stores (_, true).1 P ∧ SameSlots t (_, true).1
    rw [← ht']
    refine ⟨?_, ?_⟩
    · constructor
      case dom => rw [ht']; exact h.dom
      case free_lt => rw [ht']; exact h.free_lt
      case free_nodup => rw [ht']; exact h.free_nodup
      case root_iff => rw [ht']; exact h.root_iff
      case blank =>
        intro j hj
        have := h.blank j hj
        grind
      case root_blank =>
        intro j ns' hj
        have := h.root_blank j ns' hj
        grind
      case edge_nil =>
        intro j ns' q hj
        have := h.edge_nil j ns' q hj
        grind
      case depth_eq =>
        intro j ns' q hj
        have := h.depth_eq j ns' q hj
        grind
      case child =>
        intro j ns' q a c hj hc
        have := h.child j ns' q a c hj
        grind
      case parent =>
        intro c ns' q hc hq
        obtain ⟨p', a, hpar, hpath, hget⟩ := h.parent c ns' q hc hq
        refine ⟨p', a, ?_⟩
        grind
      case pins_count =>
        intro j
        have hcount := Map.count_erase hget j
        rw [← h.pins_count j] at hcount
        rw [hpins, hnode]
        grind
      case pin_lt =>
        intro id' j hid
        rw [hpins, Map.get_erase] at hid
        rw [hnext]
        split at hid
        · cases hid
        · exact h.pin_lt id' j hid
    · refine ⟨fun j => ?_, fun j => ?_, by rw [ht']; rfl⟩ <;>
        · rw [hnode]
          grind

end PrefixTree

end Retrograd.Infer
