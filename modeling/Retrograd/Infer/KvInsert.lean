import Retrograd.Infer.KvRepr

/-!
# Insertion into the prefix tree

`insert` walks down the edges the path shares, splits the edge where the path leaves it, and
hangs the rest below as one leaf. Each of the three moves stores one more path and changes no
payload, so the walk does the same: every node keeps its slot, snapshot and pins, and only the
end node may gain the inserted slot.
-/

namespace Retrograd.Infer

open Logic List Option Function

namespace PrefixTree

variable {t t' : PrefixTree} {P P' : Labels} {ns : Namespace} {p q rest : List Token}
  {i j cur child : ℕ} {first : Token}

/-! ### Allocation -/

/-- `t'` is `t` with one more index in use, whatever the nodes hold. -/
structure Takes (t : PrefixTree) (P : Labels) (t' : PrefixTree) (r : ℕ) : Prop where
  fresh : P r = none
  dom : ∀ j, j < t'.len ∧ j ∉ t'.free ↔ j = r ∨ (P j).isSome
  free_lt : ∀ i ∈ t'.free, i < t'.len
  free_nodup : t'.free.Nodup
  pins : t'.pins = t.pins
  nextPin : t'.nextPin = t.nextPin
  clock : t'.clock = t.clock
  snapshotBytes : t'.snapshotBytes = t.snapshotBytes

theorem alloc_nodes (t : PrefixTree) (node : Node) (j : ℕ) :
    (t.alloc node).1.nodes j = if j = (t.alloc node).2 then node else t.nodes j := by
  unfold alloc
  split <;> exact update_apply ..

theorem alloc_roots (t : PrefixTree) (node : Node) : (t.alloc node).1.roots = t.roots := by
  unfold alloc
  split <;> rfl

theorem alloc_takes (h : Stores t P) (node : Node) :
    Takes t P (t.alloc node).1 (t.alloc node).2 := by
  unfold alloc
  cases hfree : t.free with
  | nil =>
    have hdom := h.dom
    simp only [hfree, not_mem_nil, not_false_eq_true, and_true] at hdom
    refine ⟨?_, fun j => ?_, by simp, by simp, rfl, rfl, rfl, rfl⟩
    · rw [← not_isSome_iff_eq_none, hdom]
      exact lt_irrefl _
    · simp only [hdom, not_mem_nil, not_false_eq_true, and_true]
      omega
  | cons r free =>
    have hnodup := h.free_nodup
    have hlt := h.free_lt
    have hdom := h.dom
    simp only [hfree, nodup_cons, mem_cons, forall_eq_or_imp] at hnodup hlt
    simp only [hfree, mem_cons, not_or] at hdom
    refine ⟨?_, fun j => ?_, hlt.2, hnodup.2, rfl, rfl, rfl, rfl⟩
    · rw [← not_isSome_iff_eq_none, hdom]
      exact fun hr => hr.2.1 rfl
    · rw [hdom]
      by_cases hj : j = r
      · subst j
        simp [hlt.1, hnodup.1]
      · simp [hj]

namespace Takes

variable {r : ℕ} {l : Namespace × List Token} (ht : Takes t P t' r)

include ht

theorem grows : Extends P (Function.update P r (some l)) := by
  intro j l' hj
  rwa [update_of_ne]
  rintro rfl
  rw [ht.fresh] at hj
  cases hj

/-- The bookkeeping half of the invariant: what the new tree stores depends on its nodes. -/
theorem stores (h : Stores t P)
    (hblank : ∀ j, j ≠ r → P j = none → t'.nodes j = {})
    (hpins : ∀ j, (t'.nodes j).pins = (t.nodes j).pins)
    (hroot_iff : ∀ ns i, t'.root ns = some i ↔ Function.update P r (some l) i = some (ns, []))
    (hroot_blank : ∀ j ns, Function.update P r (some l) j = some (ns, []) →
      (t'.nodes j).slot = none ∧ (t'.nodes j).snapshot = none ∧ (t'.nodes j).pins = 0)
    (hedge : ∀ j ns p, Function.update P r (some l) j = some (ns, p) →
      ((t'.nodes j).edge = [] ↔ p = []) ∧ (t'.nodes j).depth = p.length)
    (hchild : ∀ j ns p a c, Function.update P r (some l) j = some (ns, p) →
      (t'.nodes j).children.get a = some c →
      Function.update P r (some l) c = some (ns, p ++ (t'.nodes c).edge) ∧
        (t'.nodes c).parent = j ∧ (t'.nodes c).edge.head? = some a)
    (hparent : ∀ c ns q, Function.update P r (some l) c = some (ns, q) → q ≠ [] →
      ∃ p a, Function.update P r (some l) (t'.nodes c).parent = some (ns, p) ∧
        q = p ++ (t'.nodes c).edge ∧
        (t'.nodes (t'.nodes c).parent).children.get a = some c) :
    Stores t' (Function.update P r (some l)) where
  dom j := by
    rw [ht.dom]
    by_cases hj : j = r <;> simp [hj]
  blank j hj := by
    by_cases hjr : j = r
    · simp [hjr] at hj
    · rw [update_of_ne hjr] at hj
      exact hblank j hjr hj
  free_lt := ht.free_lt
  free_nodup := ht.free_nodup
  root_iff := hroot_iff
  root_blank := hroot_blank
  edge_nil j ns p hj := (hedge j ns p hj).1
  depth_eq j ns p hj := (hedge j ns p hj).2
  child := hchild
  parent := hparent
  pins_count j := by rw [hpins, ht.pins, h.pins_count]
  pin_lt := by rw [ht.pins, ht.nextPin]; exact h.pin_lt

end Takes

/-! ### New roots -/

theorem rootOrInsert_of_none (hroot : t.root ns = none) :
    t.rootOrInsert ns =
      ({ (t.alloc {}).1.setNode (t.alloc {}).2 fun node => { node with parent := (t.alloc {}).2 }
          with roots := (t.alloc {}).1.roots.insert ns (t.alloc {}).2 }, (t.alloc {}).2) := by
  simp [rootOrInsert, hroot]

/-- The root of a namespace exists after `rootOrInsert`, and nothing else changes. -/
theorem rootOrInsert_spec (h : Stores t P) (ns : Namespace) :
    ∃ P', Stores (t.rootOrInsert ns).1 P' ∧ P' (t.rootOrInsert ns).2 = some (ns, []) ∧
      Extends P P' ∧ SamePayload t (t.rootOrInsert ns).1 := by
  cases hroot : t.root ns with
  | some r =>
    rw [show t.rootOrInsert ns = (t, r) by simp [rootOrInsert, hroot]]
    exact ⟨P, h, (h.root_iff ns r).mp hroot, Extends.refl P, SamePayload.refl t⟩
  | none =>
    have hns : ns ≠ 0 := by
      rintro rfl
      simp [root] at hroot
    obtain ⟨r, hr⟩ : ∃ r, (t.alloc {}).2 = r := ⟨_, rfl⟩
    rw [rootOrInsert_of_none hroot, hr]
    obtain ⟨t', ht'⟩ : ∃ t', t' = { (t.alloc {}).1.setNode r fun node =>
      { node with parent := r } with roots := (t.alloc {}).1.roots.insert ns r } := ⟨_, rfl⟩
    rw [← ht']
    have ht : Takes t P t' r := by
      obtain ⟨h1, h2, h3, h4, h5, h6, h7, h8⟩ := alloc_takes h {}
      rw [hr] at h1 h2
      subst t'
      exact ⟨h1, h2, h3, h4, h5, h6, h7, h8⟩
    have hblank := h.blank r ht.fresh
    have hnode : ∀ j, t'.nodes j = if j = r then { parent := r } else t.nodes j := by
      intro j
      rw [ht']
      by_cases hj : j = r <;> simp [alloc_nodes, hr, hj]
    have hroots : ∀ ns', t'.root ns' = if ns' = ns then some r else t.root ns' := by
      intro ns'
      by_cases hns' : ns' = ns
      · simp [ht', root, hns', hns]
      · by_cases h0 : ns' = 0
        · simp [root, h0, Ne.symm hns]
        · simp [ht', root, hns', h0, alloc_roots, Map.get_insert_of_ne]
    clear ht'
    refine ⟨Function.update P r (some (ns, [])), ht.stores h ?_ ?_ ?_ ?_ ?_ ?_ ?_,
      update_self .., ht.grows, ?_⟩
    · intro j hj hP
      rw [hnode, if_neg hj, h.blank j hP]
    · intro j
      rw [hnode]
      split
      · subst j
        rw [hblank]
      · rfl
    · intro ns' i
      have := h.root_iff ns' i
      have := ht.fresh
      simp only [hroots, update_apply]
      grind
    · intro j ns' hj
      have := h.root_blank j ns'
      simp only [hnode, update_apply] at hj ⊢
      grind
    · intro j ns' p hj
      have := h.edge_nil j ns' p
      have := h.depth_eq j ns' p
      simp only [hnode, update_apply] at hj ⊢
      grind
    · intro j ns' p a c hj hc
      have := h.child j ns' p a c
      have := ht.fresh
      simp only [hnode, update_apply] at hj hc ⊢
      grind [Map.get_empty]
    · intro c ns' q hc hq
      have := h.parent c ns' q
      have := ht.fresh
      simp only [hnode, update_apply] at hc ⊢
      grind
    · refine ⟨?_, ?_, ?_, ht.pins, ht.nextPin, ht.clock, ht.snapshotBytes⟩ <;>
        · intro j
          rw [hnode]
          split
          · subst j
            rw [hblank]
          · rfl

/-! ### The common head of an edge -/

theorem commonLen_le (edge tokens : List Token) : commonLen edge tokens ≤ edge.length := by
  induction edge, tokens using commonLen.induct with
  | case1 a edge tokens ih => simpa [commonLen] using ih
  | case2 a edge b tokens hne => simp [commonLen, hne]
  | case3 => simp [commonLen]

theorem take_commonLen (edge tokens : List Token) :
    edge.take (commonLen edge tokens) = tokens.take (commonLen edge tokens) := by
  induction edge, tokens using commonLen.induct with
  | case1 a edge tokens ih => simpa [commonLen] using ih
  | case2 a edge b tokens hne => simp [commonLen, hne]
  | case3 => simp [commonLen]

theorem commonLen_le_right (edge tokens : List Token) :
    commonLen edge tokens ≤ tokens.length := by
  induction edge, tokens using commonLen.induct with
  | case1 a edge tokens ih => simpa [commonLen] using ih
  | case2 a edge b tokens hne => simp [commonLen, hne]
  | case3 => simp [commonLen]

/-- An edge shared whole is a prefix of the remaining path. -/
theorem append_drop_of_commonLen {edge tokens : List Token}
    (h : commonLen edge tokens = edge.length) :
    edge ++ tokens.drop (commonLen edge tokens) = tokens := by
  have htake := take_commonLen edge tokens
  rw [h, take_length] at htake
  rw [h]
  nth_rewrite 1 [htake]
  exact take_append_drop ..

theorem take_append_drop_commonLen (edge tokens : List Token) :
    edge.take (commonLen edge tokens) ++ tokens.drop (commonLen edge tokens) = tokens := by
  rw [take_commonLen, take_append_drop]

theorem commonLen_pos {edge tokens : List Token} (h : edge.head? = some first) :
    0 < commonLen edge (first :: tokens) := by
  obtain ⟨edge, rfl⟩ := head?_eq_some_iff.mp h
  simp [commonLen]

/-! ### New leaves -/

/-- A new leaf stores the path it completes. -/
theorem addLeaf_spec (h : Stores t P) (hcur : P cur = some (ns, p))
    (hfirst : (t.nodes cur).children.get first = none) :
    ∃ P', Stores (t.addLeaf cur first (first :: rest) (p.length + (rest.length + 1))).1 P' ∧
      P' (t.addLeaf cur first (first :: rest) (p.length + (rest.length + 1))).2
        = some (ns, p ++ first :: rest) ∧ Extends P P' ∧
      SamePayload t (t.addLeaf cur first (first :: rest) (p.length + (rest.length + 1))).1 := by
  obtain ⟨leaf, hleaf⟩ : ∃ leaf : Node, leaf =
    { edge := first :: rest, parent := cur, depth := p.length + (rest.length + 1) } := ⟨_, rfl⟩
  obtain ⟨r, hr⟩ : ∃ r, (t.alloc leaf).2 = r := ⟨_, rfl⟩
  rw [show t.addLeaf cur first (first :: rest) (p.length + (rest.length + 1)) =
    ((t.alloc leaf).1.setNode cur fun n => { n with children := n.children.insert first r }, r) by
      simp [addLeaf, hleaf, ← hr]]
  obtain ⟨t', ht'⟩ : ∃ t', t' = (t.alloc leaf).1.setNode cur fun n =>
    { n with children := n.children.insert first r } := ⟨_, rfl⟩
  rw [← ht']
  have ht : Takes t P t' r := by
    obtain ⟨h1, h2, h3, h4, h5, h6, h7, h8⟩ := alloc_takes h leaf
    rw [hr] at h1 h2
    subst t'
    exact ⟨h1, h2, h3, h4, h5, h6, h7, h8⟩
  have hblank := h.blank r ht.fresh
  have hne : cur ≠ r := by
    rintro rfl
    rw [ht.fresh] at hcur
    cases hcur
  have hnode : ∀ j, t'.nodes j = if j = cur then
      { t.nodes cur with children := (t.nodes cur).children.insert first r }
      else if j = r then leaf else t.nodes j := by
    intro j
    rw [ht']
    by_cases hj : j = cur <;> simp [alloc_nodes, hr, hj, hne]
  have hroots : ∀ ns', t'.root ns' = t.root ns' := fun ns' => by
    rw [ht', setNode_root, root, root, alloc_roots]
  clear ht'
  have hpath : p ++ first :: rest ≠ [] := by simp
  refine ⟨Function.update P r (some (ns, p ++ first :: rest)), ht.stores h ?_ ?_ ?_ ?_ ?_ ?_ ?_,
    update_self .., ht.grows, ?_⟩
  · intro j hj hP
    have := h.blank j hP
    grind
  · intro j
    grind
  · intro ns' i
    have := h.root_iff ns' i
    have := ht.fresh
    simp only [hroots, update_apply]
    grind
  · intro j ns' hj
    have := h.root_blank j ns'
    simp only [hnode, update_apply] at hj ⊢
    grind
  · intro j ns' q hj
    have := h.edge_nil j ns' q
    have := h.depth_eq j ns' q
    simp only [hnode, update_apply] at hj ⊢
    grind
  · intro j ns' q a c hj hc
    have := h.child j ns' q a c
    have := ht.fresh
    simp only [hnode, update_apply] at hj hc ⊢
    grind [Map.get_empty, Map.get_insert]
  · intro c ns' q hc hq
    have := ht.fresh
    simp only [update_apply] at hc ⊢
    by_cases hcr : c = r
    · refine ⟨p, first, ?_⟩
      grind [Map.get_insert]
    · rw [if_neg hcr] at hc
      obtain ⟨p', a, hp', hq', hget⟩ := h.parent c ns' q hc hq
      refine ⟨p', a, ?_⟩
      grind [Map.get_insert]
  · refine ⟨?_, ?_, ?_, ht.pins, ht.nextPin, ht.clock, ht.snapshotBytes⟩ <;>
      · intro j
        grind

/-! ### Split edges -/

/-- Allocating does not see the contents of a node in use. -/
theorem alloc_setNode (t : PrefixTree) (node : Node) {i : ℕ} (f : Node → Node)
    (hi : i ≠ (t.alloc node).2) :
    (t.setNode i f).alloc node = ((t.alloc node).1.setNode i f, (t.alloc node).2) := by
  unfold alloc at hi ⊢
  cases hfree : t.free with
  | nil =>
    rw [hfree] at hi
    simp only [setNode, hfree, update_of_ne hi]
    rw [update_comm hi]
  | cons r free =>
    rw [hfree] at hi
    simp only [setNode, hfree, update_of_ne hi]
    rw [update_comm hi]

/-- The middle node of a split edge stores the shared head, and no stored path moves. -/
theorem split_spec {matched : ℕ} (h : Stores t P) (hcur : P cur = some (ns, p))
    (hget : (t.nodes cur).children.get first = some child) (hpos : 0 < matched)
    (hlt : matched < (t.nodes child).edge.length) :
    ∃ P', Stores (t.split cur child first matched).1 P' ∧
      P' (t.split cur child first matched).2
        = some (ns, p ++ (t.nodes child).edge.take matched) ∧ Extends P P' ∧
      SamePayload t (t.split cur child first matched).1 := by
  obtain ⟨hchild, hparent, hhead⟩ := h.child cur ns p first child hcur hget
  obtain ⟨edge, hedge⟩ : ∃ edge, edge = (t.nodes child).edge := ⟨_, rfl⟩
  rw [← hedge] at hchild hhead hlt ⊢
  have hne : cur ≠ child := by
    rintro rfl
    rw [hcur] at hchild
    have hlen := congrArg (fun l => l.map fun l => l.2.length) hchild
    simp at hlen
    rw [hlen] at hlt
    simp at hlt
  obtain ⟨head, hheadEq⟩ : ∃ head, head = edge.take matched := ⟨_, rfl⟩
  obtain ⟨tail, htailEq⟩ : ∃ tail, tail = edge.drop matched := ⟨_, rfl⟩
  have happend : head ++ tail = edge := by rw [hheadEq, htailEq, take_append_drop]
  have hheadLen : head.length = matched := by rw [hheadEq, length_take]; omega
  have hhead' : head.head? = some first := by
    rw [hheadEq, head?_take, if_neg (by omega), hhead]
  obtain ⟨th, htail⟩ : ∃ th, tail.head? = some th := by
    rw [htailEq, head?_drop]
    exact ⟨_, getElem?_eq_getElem hlt⟩
  have htailNe : tail ≠ [] := by
    rintro hnil
    rw [hnil] at htail
    cases htail
  obtain ⟨node, hnodeEq⟩ : ∃ node : Node, node =
    { edge := head, parent := cur, depth := (t.nodes cur).depth + matched } := ⟨_, rfl⟩
  obtain ⟨mid, hmid⟩ : ∃ mid, (t.alloc node).2 = mid := ⟨_, rfl⟩
  have htakes := alloc_takes h node
  rw [hmid] at htakes
  have hcurMid : cur ≠ mid := by
    rintro rfl
    rw [htakes.fresh] at hcur
    cases hcur
  have hchildMid : child ≠ mid := by
    rintro rfl
    rw [htakes.fresh] at hchild
    cases hchild
  obtain ⟨t', ht'⟩ : ∃ t', t' = (((((t.alloc node).1.setNode child fun n =>
      { n with edge := tail }).setNode mid fun n =>
      { n with children := n.children.insert th child }).setNode child fun n =>
      { n with parent := mid }).setNode cur fun n =>
      { n with children := n.children.insert first mid }) := ⟨_, rfl⟩
  have hsplit : t.split cur child first matched = (t', mid) := by
    have halloc := alloc_setNode t node (fun n => { n with edge := tail })
      (i := child) (by rw [hmid]; exact hchildMid)
    have hdepth : ((t.setNode child fun n => { n with edge := tail }).nodes cur).depth
        = (t.nodes cur).depth := by
      rw [setNode_nodes, if_neg hne]
    have hth : tail.headD 0 = th := by rw [headD_eq_head?_getD, htail, getD_some]
    rw [hmid, hnodeEq] at halloc
    unfold split
    simp only [← hedge, ← hheadEq, ← htailEq, hdepth, halloc, hth, ht', hnodeEq]
  rw [hsplit]
  have ht : Takes t P t' mid := by
    obtain ⟨h1, h2, h3, h4, h5, h6, h7, h8⟩ := htakes
    subst t'
    exact ⟨h1, h2, h3, h4, h5, h6, h7, h8⟩
  have hblank := h.blank mid ht.fresh
  have hnode : ∀ j, t'.nodes j = if j = cur then
      { t.nodes cur with children := (t.nodes cur).children.insert first mid }
      else if j = child then { t.nodes child with edge := tail, parent := mid }
      else if j = mid then { node with children := (∅ : Map Token ℕ).insert th child }
      else t.nodes j := by
    intro j
    rw [ht']
    by_cases hj : j = cur
    · simp [alloc_nodes, hmid, hj, hne, hcurMid]
    · by_cases hj' : j = child
      · simp [alloc_nodes, hmid, hj', hne.symm, hchildMid]
      · by_cases hj'' : j = mid
        · have hempty : node.children = ∅ := by rw [hnodeEq]
          simp [alloc_nodes, hmid, hj'', hcurMid.symm, hchildMid.symm, hempty]
        · simp [alloc_nodes, hmid, hj, hj', hj'']
  have hroots : ∀ ns', t'.root ns' = t.root ns' := fun ns' => by
    simp only [ht', setNode_root]
    rw [root, root, alloc_roots]
  clear ht' hsplit
  have hpath : p ++ head ≠ [] := by
    rintro hnil
    rw [(append_eq_nil_iff.mp hnil).2] at hhead'
    cases hhead'
  have hpath' : p ++ edge = (p ++ head) ++ tail := by rw [append_assoc, happend]
  have hedgeNe := h.edge_nil child ns (p ++ edge) hchild
  have hdepth := h.depth_eq cur ns p hcur
  refine ⟨Function.update P mid (some (ns, p ++ head)), ht.stores h ?_ ?_ ?_ ?_ ?_ ?_ ?_,
    by rw [update_self, hheadEq], ht.grows, ?_⟩
  · intro j hj hP
    have := h.blank j hP
    grind
  · intro j
    grind
  · intro ns' i
    have := h.root_iff ns' i
    have := ht.fresh
    simp only [hroots, update_apply]
    grind
  · intro j ns' hj
    have := h.root_blank j ns'
    simp only [hnode, update_apply] at hj ⊢
    grind
  · intro j ns' q hj
    have := h.edge_nil j ns' q
    have := h.depth_eq j ns' q
    simp only [hnode, update_apply] at hj ⊢
    grind
  · intro j ns' q a c hj hc
    have := h.child j ns' q a c
    have := ht.fresh
    simp only [hnode, update_apply] at hj hc ⊢
    grind [Map.get_empty, Map.get_insert]
  · intro c ns' q hc hq
    have := ht.fresh
    simp only [update_apply] at hc ⊢
    by_cases hcr : c = mid
    · refine ⟨p, first, ?_⟩
      grind [Map.get_insert]
    · rw [if_neg hcr] at hc
      by_cases hcc : c = child
      · refine ⟨p ++ head, th, ?_⟩
        grind [Map.get_insert]
      · obtain ⟨p', a, hp', hq', hget'⟩ := h.parent c ns' q hc hq
        refine ⟨p', a, ?_⟩
        grind [Map.get_insert]
  · refine ⟨?_, ?_, ?_, ht.pins, ht.nextPin, ht.clock, ht.snapshotBytes⟩ <;>
      · intro j
        grind

/-! ### The whole walk -/

/-- The walk below `cur` ends at a node that stores the whole path. -/
theorem insertFrom_spec (fuel : ℕ) : ∀ {t : PrefixTree} {P : Labels} {cur : ℕ}
    {p rest : List Token}, Stores t P → P cur = some (ns, p) → rest.length ≤ fuel →
    ∃ t' node P', insertFrom (p.length + rest.length) fuel t cur rest = some (t', node) ∧
      Stores t' P' ∧ P' node = some (ns, p ++ rest) ∧ Extends P P' ∧ SamePayload t t' := by
  induction fuel with
  | zero =>
    intro t P cur p rest h hcur hlen
    obtain rfl : rest = [] := length_eq_zero_iff.mp (Nat.le_zero.mp hlen)
    exact ⟨t, cur, P, rfl, h, by simpa using hcur, Extends.refl P, SamePayload.refl t⟩
  | succ fuel ih =>
    intro t P cur p rest h hcur hlen
    cases rest with
    | nil => exact ⟨t, cur, P, rfl, h, by simpa using hcur, Extends.refl P, SamePayload.refl t⟩
    | cons first rest =>
      cases hget : (t.nodes cur).children.get first with
      | none =>
        obtain ⟨P', hs, hnode, hext, hsame⟩ := @addLeaf_spec _ _ _ _ rest _ _ h hcur hget
        refine ⟨_, _, P', ?_, hs, hnode, hext, hsame⟩
        simp [insertFrom, hget]
      | some child =>
        obtain ⟨hchild, -, hhead⟩ := h.child cur ns p first child hcur hget
        have hpos := @commonLen_pos _ (t.nodes child).edge rest hhead
        have hle := commonLen_le (t.nodes child).edge (first :: rest)
        have hle' := commonLen_le_right (t.nodes child).edge (first :: rest)
        obtain ⟨k, hk⟩ : ∃ k, commonLen (t.nodes child).edge (first :: rest) = k := ⟨_, rfl⟩
        have htake := take_append_drop_commonLen (t.nodes child).edge (first :: rest)
        rw [hk] at hpos hle hle' htake
        have hdrop : ((first :: rest).drop k).length ≤ fuel := by
          rw [length_drop]
          omega
        by_cases hlt : k < (t.nodes child).edge.length
        · obtain ⟨P₁, hs₁, hmid, hext₁, hsame₁⟩ := split_spec h hcur hget hpos hlt
          obtain ⟨t', node, P', heq, hs, hnode, hext, hsame⟩ := ih hs₁ hmid hdrop
          have hdepth : (p ++ (t.nodes child).edge.take k).length
              + ((first :: rest).drop k).length = p.length + (first :: rest).length := by
            rw [length_append, Nat.add_assoc, ← length_append, htake]
          refine ⟨t', node, P', ?_, hs, ?_, hext₁.trans hext, hsame₁.trans hsame⟩
          · rw [hdepth] at heq
            simp only [insertFrom, hget, hk, if_pos hlt, heq]
          · rw [hnode, append_assoc, htake]
        · have hwhole : k = (t.nodes child).edge.length := by omega
          rw [hwhole, take_length, ← hwhole] at htake
          obtain ⟨t', node, P', heq, hs, hnode, hext, hsame⟩ := ih h hchild hdrop
          have hdepth : (p ++ (t.nodes child).edge).length
              + ((first :: rest).drop k).length = p.length + (first :: rest).length := by
            rw [length_append, Nat.add_assoc, ← length_append, htake]
          refine ⟨t', node, P', ?_, hs, ?_, hext, hsame⟩
          · rw [hdepth] at heq
            simp only [insertFrom, hget, hk, if_neg hlt, heq]
          · rw [hnode, append_assoc, htake]

/-- What `insert` leaves at every node: only the end node changes, and only when it owned no
slot. -/
structure Inserted (t t' : PrefixTree) (node slot : ℕ) (attached : Bool) : Prop where
  attached_iff : attached = true ↔ (t.nodes node).slot = none
  slot : ∀ i, (t'.nodes i).slot = if i = node ∧ attached then some slot else (t.nodes i).slot
  snapshot : ∀ i, (t'.nodes i).snapshot = (t.nodes i).snapshot
  nodePins : ∀ i, (t'.nodes i).pins = (t.nodes i).pins
  pins : t'.pins = t.pins
  nextPin : t'.nextPin = t.nextPin
  snapshotBytes : t'.snapshotBytes = t.snapshotBytes

/-- Inserting a non-empty path stores it, keeps every other path, and attaches the slot exactly
when the end node owned none. -/
theorem insert_spec (h : Stores t P) {tokens : List Token} (htokens : tokens ≠ []) (slot : ℕ) :
    ∃ t' node attached P', t.insert ns tokens slot = some (t', node, attached) ∧ Stores t' P' ∧
      P' node = some (ns, tokens) ∧ Extends P P' ∧ Inserted t t' node slot attached := by
  obtain ⟨P₁, hs₁, hroot, hext₁, hsame₁⟩ := rootOrInsert_spec h ns
  obtain ⟨t₂, node, P₂, heq, hs₂, hnode, hext₂, hsame₂⟩ :=
    insertFrom_spec tokens.length hs₁ hroot le_rfl
  rw [length_nil, Nat.zero_add] at heq
  rw [nil_append] at hnode
  have hsame := hsame₁.trans hsame₂
  have hnotRoot : t₂.isRoot node = false := by
    rw [Bool.eq_false_iff, Ne, hs₂.isRoot_iff hnode]
    exact htokens
  have hinsert : t.insert ns tokens slot
      = some ((t₂.attach node slot).1, node, (t₂.attach node slot).2) := by
    simp only [insert, heq, map_some]
  cases hslot : (t₂.nodes node).slot with
  | some σ =>
    have hattach : t₂.attach node slot = (t₂, false) := by simp [attach, hslot]
    rw [hattach] at hinsert
    refine ⟨t₂, node, false, P₂, hinsert, hs₂, hnode, hext₁.trans hext₂, ?_⟩
    refine ⟨?_, fun i => by simp [hsame.slot], hsame.snapshot, hsame.nodePins, hsame.pins,
      hsame.nextPin, hsame.snapshotBytes⟩
    rw [← hsame.slot, hslot]
    simp
  | none =>
    obtain ⟨now, hnow⟩ : ∃ now, t₂.tick.2 = now := ⟨_, rfl⟩
    have hattach : t₂.attach node slot = (t₂.tick.1.setNode node fun n =>
        { n with slot := some slot, lastUse := now }, true) := by
      simp [attach, hnotRoot, hslot, hnow]
    rw [hattach] at hinsert
    have hticked : Stores t₂.tick.1 P₂ :=
      hs₂.congr rfl rfl rfl rfl rfl (fun _ => ⟨rfl, rfl, rfl, rfl, rfl⟩) fun _ _ => rfl
    have hstores := hticked.setPayload (f := fun n => { n with slot := some slot, lastUse := now })
      hnode htokens fun _ => ⟨rfl, rfl, rfl, rfl, rfl⟩
    refine ⟨_, node, true, P₂, hinsert, hstores, hnode, hext₁.trans hext₂, ?_⟩
    have hnodes : ∀ i, t₂.tick.1.nodes i = t₂.nodes i := fun _ => rfl
    refine ⟨?_, fun i => ?_, fun i => ?_, fun i => ?_, hsame.pins, hsame.nextPin,
      hsame.snapshotBytes⟩
    · rw [← hsame.slot, hslot]
      simp
    all_goals
      rw [setNode_nodes, hnodes]
      by_cases hi : i = node <;> simp [hi, hnodes, hsame.slot, hsame.snapshot, hsame.nodePins]

end PrefixTree

end Retrograd.Infer
