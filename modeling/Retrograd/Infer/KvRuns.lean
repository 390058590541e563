import Retrograd.Infer.KvRemove
import Mathlib.Data.Set.Card

/-!
# Runs of the prefix tree

The scheduler drives the tree through ten operations; `Run` is the **reachability** of a tree
under them, in any order, with a ledger beside it of the slots that were attached and not
detached since. A node is named by the keys one follows from a namespace's root to reach it.

`WellFormed` is the representation invariant of every run: one way to every node in use,
distinct paths, keys and depths that fit the edges, a free list of unreachable indices, and
counters that count.
-/

namespace Retrograd.Infer

open Logic List Option

namespace PrefixTree

/-! ### Operations -/

/-- Pins the node at exactly `tokens`, if the tree has one. -/
def pinAt (t : PrefixTree) (ns : Namespace) (tokens : List Token) :
    Option (PrefixTree × Option PinId) :=
  (t.findExact ns tokens).map fun found =>
    match found with
    | none => (t, none)
    | some node =>
      let (t, id) := t.pinNode node
      (t, some id)

/-- One call of the tree's owner. -/
inductive Op where
  | insert (ns : Namespace) (tokens : List Token) (slot : ℕ)
  | remove (node : ℕ)
  | detachSlot (node : ℕ)
  | attachSnapshot (node : ℕ) (snapshot : Snapshot)
  | pinAt (ns : Namespace) (tokens : List Token)
  | pinNode (node : ℕ)
  | unpin (id : PinId)
  | touch (node : ℕ)
  | dropNamespace (ns : Namespace)
  | clear

/-- What a call answers. -/
inductive Reply where
  | done
  | node (node : ℕ) (attached : Bool)
  | pin (id : Option PinId)
  | unpinned (known : Bool)
  | slots (slots : List ℕ)

/-- Executes one call; `none` is a walk that does not end. -/
def apply (t : PrefixTree) : Op → Option (PrefixTree × Reply)
  | .insert ns tokens slot =>
    (t.insert ns tokens slot).map fun (t, node, attached) => (t, .node node attached)
  | .remove node => (t.remove node).map fun t => (t, .done)
  | .detachSlot node => some (t.detachSlot node, .done)
  | .attachSnapshot node snapshot => some (t.attachSnapshot node snapshot, .done)
  | .pinAt ns tokens => (t.pinAt ns tokens).map fun (t, id) => (t, .pin id)
  | .pinNode node => let (t, id) := t.pinNode node; some (t, .pin (some id))
  | .unpin id => let (t, known) := t.unpin id; some (t, .unpinned known)
  | .touch node => some (t.touch node, .done)
  | .dropNamespace ns => (t.dropNamespace ns).map fun (t, slots) => (t, .slots slots)
  | .clear => let (t, slots) := t.clear; some (t, .slots slots)

/-- `node` is in use and is no root. -/
def Holds (t : PrefixTree) (node : ℕ) : Prop :=
  node < t.len ∧ node ∉ t.free ∧ t.isRoot node = false

instance (t : PrefixTree) (node : ℕ) : Decidable (t.Holds node) :=
  inferInstanceAs (Decidable (_ ∧ _))

/-- The scheduler names only nodes it was given by a lookup, an insertion or a choice of an
eviction victim. -/
def Op.Issued (t : PrefixTree) : Op → Prop
  | .remove node | .detachSlot node | .attachSnapshot node _ | .pinNode node | .touch node =>
    t.Holds node
  | _ => True

/-- A slot that a node owns: its namespace, the node and the slot. -/
structure Attached where
  ns : Namespace
  node : ℕ
  slot : ℕ
  deriving DecidableEq

/-- The ledger after a call: insertion adds the slot it attached, `remove` and `detachSlot`
take a node's slot off, dropping a namespace takes off those attached in it. -/
def Op.account (ledger : List Attached) : Op → Reply → List Attached
  | .insert ns _ slot, .node node true => ⟨ns, node, slot⟩ :: ledger
  | .remove node, _ | .detachSlot node, _ => ledger.filter (·.node ≠ node)
  | .dropNamespace ns, _ => ledger.filter (·.ns ≠ ns)
  | .clear, _ => []
  | _, _ => ledger

/-- The trees a run from the empty one reaches, with the slots that are attached. -/
inductive Run : PrefixTree → List Attached → Prop
  | new : Run new []
  | step {t t' : PrefixTree} {ledger : List Attached} {op : Op} {reply : Reply} :
    Run t ledger → op.Issued t → t.apply op = some (t', reply) →
      Run t' (op.account ledger reply)

/-! ### The ways through a tree -/

/-- The node that the child keys lead to from `i`, and the tokens of the edges on the way. -/
def follow (t : PrefixTree) : ℕ → List Token → Option (ℕ × List Token)
  | i, [] => some (i, [])
  | i, a :: keys =>
    match (t.nodes i).children.get a with
    | none => none
    | some c => (t.follow c keys).map fun (j, path) => (j, (t.nodes c).edge ++ path)

/-- In `ns`, the keys lead from the root to the node `i`, along the tokens `path`. -/
def At (t : PrefixTree) (ns : Namespace) (keys : List Token) (i : ℕ) (path : List Token) : Prop :=
  ∃ r, t.root ns = some r ∧ t.follow r keys = some (i, path)

variable {t t' : PrefixTree} {P P' : Labels} {ns ns' : Namespace}
  {p q path path' keys keys' : List Token} {i j c r node : ℕ} {a : Token}

theorem follow_cons (hget : (t.nodes i).children.get a = some c) :
    t.follow i (a :: keys) = (t.follow c keys).map fun (j, path) => (j, (t.nodes c).edge ++ path) := by
  rw [follow, hget]

theorem follow_cons_eq_some (h : t.follow i (a :: keys) = some (j, path)) :
    ∃ c rest, (t.nodes i).children.get a = some c ∧ t.follow c keys = some (j, rest) ∧
      path = (t.nodes c).edge ++ rest := by
  cases hget : (t.nodes i).children.get a with
  | none => rw [follow, hget] at h; cases h
  | some c =>
    rw [follow_cons hget] at h
    obtain ⟨⟨j', rest⟩, hrest, heq⟩ := map_eq_some_iff.mp h
    cases heq
    exact ⟨c, rest, rfl, hrest, rfl⟩

/-- One more key at the end of a way leads to a child. -/
theorem follow_concat (hget : (t.nodes j).children.get a = some c) :
    ∀ {keys path i}, t.follow i keys = some (j, path) →
      t.follow i (keys ++ [a]) = some (c, path ++ (t.nodes c).edge) := by
  intro keys
  induction keys with
  | nil =>
    intro path i h
    cases h
    simp [follow_cons hget, follow]
  | cons b keys ih =>
    intro path i h
    obtain ⟨d, rest, hd, hrest, rfl⟩ := follow_cons_eq_some h
    rw [cons_append, follow_cons hd, ih hrest, map_some, append_assoc]

/-- A way that begins with the keys to `j` goes on from `j`. -/
theorem follow_append_eq_some {path' : List Token} : ∀ {keys more path i},
    t.follow i keys = some (j, path) → t.follow i (keys ++ more) = some (c, path') →
      ∃ rest, t.follow j more = some (c, rest) ∧ path' = path ++ rest := by
  intro keys
  induction keys generalizing path' with
  | nil =>
    intro more path i h h'
    cases h
    exact ⟨path', h', rfl⟩
  | cons a keys ih =>
    intro more path i h h'
    obtain ⟨d, rest, hget, hrest, rfl⟩ := follow_cons_eq_some h
    obtain ⟨d', rest', hget', hrest', rfl⟩ := follow_cons_eq_some h'
    obtain rfl : d = d' := some.inj (hget.symm.trans hget')
    obtain ⟨tail, htail, rfl⟩ := ih hrest hrest'
    exact ⟨tail, htail, by rw [append_assoc]⟩

namespace Stores

variable (h : Stores t P)

include h

/-- A way through a stored tree spells the path of the node it leads to. -/
theorem follow_label : ∀ {keys : List Token} {i : ℕ} {p path : List Token}, P i = some (ns, p) →
    t.follow i keys = some (j, path) → P j = some (ns, p ++ path) := by
  intro keys
  induction keys with
  | nil =>
    intro i p path hi hfollow
    cases hfollow
    rw [hi, append_nil]
  | cons a keys ih =>
    intro i p path hi hfollow
    obtain ⟨c, rest, hget, hrest, rfl⟩ := follow_cons_eq_some hfollow
    rw [← append_assoc]
    exact ih (h.child i ns p a c hi hget).1 hrest

theorem at_label (hat : t.At ns keys i path) : P i = some (ns, path) := by
  obtain ⟨r, hr, hfollow⟩ := hat
  simpa using h.follow_label ((h.root_iff ns r).mp hr) hfollow

/-- Every stored node is reached from the root of its namespace. -/
theorem exists_at (hi : P i = some (ns, p)) : ∃ keys, t.At ns keys i p := by
  induction hlen : p.length using Nat.strong_induction_on generalizing i p with
  | _ n ih =>
    by_cases hp : p = []
    · subst hp
      exact ⟨[], i, (h.root_iff ns i).mpr hi, rfl⟩
    · obtain ⟨p₀, a, hpar, hpath, hget⟩ := h.parent i ns p hi hp
      have hedge := length_pos_iff.mpr (h.edge_ne_nil hi hp)
      obtain ⟨keys, r, hr, hfollow⟩ := ih p₀.length
        (by rw [← hlen, hpath, length_append]; omega) hpar rfl
      exact ⟨keys ++ [a], r, hr, hpath ▸ follow_concat hget hfollow⟩

/-- Two ways from one node whose tokens agree share their keys: the walk never has a choice. -/
theorem follow_prefix : ∀ {keys keys' : List Token} {x : ℕ} {p path path' : List Token},
    P x = some (ns, p) → t.follow x keys = some (i, path) →
      t.follow x keys' = some (j, path') → path <+: path' → keys <+: keys' := by
  intro keys
  induction keys with
  | nil => intro _ _ _ _ _ _ _ _ _; exact nil_prefix
  | cons a keys ih =>
    intro keys' x p path path' hx hfollow hfollow' hpath
    obtain ⟨c, rest, hget, hrest, rfl⟩ := follow_cons_eq_some hfollow
    obtain ⟨edge, hedge, -⟩ := h.child_path hx hget
    cases keys' with
    | nil =>
      cases hfollow'
      simp [hedge] at hpath
    | cons b keys' =>
      obtain ⟨c', rest', hget', hrest', rfl⟩ := follow_cons_eq_some hfollow'
      obtain ⟨edge', hedge', -⟩ := h.child_path hx hget'
      have hab : a = b := by
        rw [hedge, hedge', cons_append, cons_append, cons_prefix_cons] at hpath
        exact hpath.1
      subst b
      obtain rfl : c = c' := some.inj (hget.symm.trans hget')
      rw [prefix_append_right_inj] at hpath
      exact cons_prefix_cons.mpr
        ⟨rfl, ih (h.child x ns p a c hx hget).1 hrest hrest' hpath⟩

/-- A path leads to one node, by one way. -/
theorem at_unique (hat : t.At ns keys i path) (hat' : t.At ns keys' j path) :
    keys = keys' ∧ i = j := by
  obtain ⟨r, hr, hfollow⟩ := hat
  obtain ⟨r', hr', hfollow'⟩ := hat'
  obtain rfl : r = r' := some.inj (hr.symm.trans hr')
  have hroot := (h.root_iff ns r).mp hr
  have hkeys : keys = keys' := by
    have hle := h.follow_prefix hroot hfollow hfollow' (prefix_refl _)
    exact hle.eq_of_length_le (h.follow_prefix hroot hfollow' hfollow (prefix_refl _)).length_le
  subst hkeys
  rw [hfollow] at hfollow'
  cases hfollow'
  exact ⟨rfl, rfl⟩

theorem label_unique (hi : P i = some (ns, p)) (hj : P j = some (ns, p)) : i = j := by
  obtain ⟨keys, hat⟩ := h.exists_at hi
  obtain ⟨keys', hat'⟩ := h.exists_at hj
  exact (h.at_unique hat hat').2

theorem holds_iff : t.Holds i ↔ ∃ ns p, P i = some (ns, p) ∧ p ≠ [] := by
  have hdom := h.dom i
  constructor
  · rintro ⟨hlt, hfree, hroot⟩
    obtain ⟨⟨ns, p⟩, hi⟩ := isSome_iff_exists.mp (hdom.mpr ⟨hlt, hfree⟩)
    refine ⟨ns, p, hi, fun hp => ?_⟩
    rw [(h.isRoot_iff hi).mpr hp] at hroot
    cases hroot
  · rintro ⟨ns, p, hi, hp⟩
    obtain ⟨hlt, hfree⟩ := hdom.mp (by rw [hi]; rfl)
    refine ⟨hlt, hfree, ?_⟩
    rw [Bool.eq_false_iff, Ne, h.isRoot_iff hi]
    exact hp

end Stores

/-! ### The namespace roots -/

theorem rootOrInsert_roots (t : PrefixTree) (ns : Namespace) :
    (t.rootOrInsert ns).1.roots.get 0 = t.roots.get 0 := by
  cases hroot : t.root ns with
  | some r => simp [rootOrInsert, hroot]
  | none =>
    have hns : 0 ≠ ns := by
      rintro rfl
      simp [root] at hroot
    rw [rootOrInsert_of_none hroot]
    show ((t.alloc {}).1.roots.insert ns _).get 0 = _
    rw [Map.get_insert_of_ne _ _ hns, alloc_roots]

theorem split_roots (t : PrefixTree) (cur child : ℕ) (first : Token) (matched : ℕ) :
    (t.split cur child first matched).1.roots = t.roots :=
  alloc_roots (t.setNode child _) _

theorem insertFrom_roots (depth fuel : ℕ) : ∀ {t t' : PrefixTree} {cur node : ℕ}
    {rest : List Token}, insertFrom depth fuel t cur rest = some (t', node) →
      t'.roots = t.roots := by
  induction fuel with
  | zero =>
    intro t t' cur node rest heq
    cases rest with
    | nil => cases heq; rfl
    | cons first rest => cases heq
  | succ fuel ih =>
    intro t t' cur node rest heq
    cases rest with
    | nil => cases heq; rfl
    | cons first rest =>
      rw [insertFrom] at heq
      split at heq
      · next child _ =>
        dsimp only at heq
        split at heq
        · rw [ih heq, split_roots]
        · exact ih heq
      · cases heq
        exact alloc_roots t _

theorem attach_roots (t : PrefixTree) (node slot : ℕ) :
    (t.attach node slot).1.roots = t.roots := by
  unfold attach
  split <;> rfl

theorem prune_roots (fuel : ℕ) : ∀ {t t' : PrefixTree} {child : ℕ},
    prune fuel t child = some t' → t'.roots = t.roots := by
  induction fuel with
  | zero => intro t t' child heq; cases heq
  | succ fuel ih =>
    intro t t' child heq
    rw [prune] at heq
    split at heq
    · cases heq; rfl
    · split at heq
      · cases heq; rfl
      · have hroots := ih heq
        exact hroots

theorem remove_roots (heq : t.remove node = some t') : t'.roots = t.roots := by
  have hroots := prune_roots _ heq
  exact hroots

theorem insert_roots {tokens : List Token} {slot : ℕ} {attached : Bool}
    (heq : t.insert ns tokens slot = some (t', node, attached)) :
    t'.roots.get 0 = t.roots.get 0 := by
  obtain ⟨⟨t₁, last⟩, hwalk, hattach⟩ := map_eq_some_iff.mp heq
  have ht' : (t₁.attach last slot).1 = t' := congrArg Prod.fst hattach
  have hroots : t₁.roots = (t.rootOrInsert ns).1.roots := insertFrom_roots _ _ hwalk
  rw [← ht', attach_roots, hroots, rootOrInsert_roots]

/-! ### The books of a run -/

/-- The bytes of the host snapshots in the arena. -/
def snapshotSum (t : PrefixTree) : ℕ :=
  ∑ i ∈ Finset.range t.len, (t.nodes i).snapshot.elim 0 Snapshot.size

/-- What a run keeps beside the stored paths: the byte counter, the namespace map, and a ledger
of exactly the slots that nodes own. -/
structure Accounts (t : PrefixTree) (P : Labels) (ledger : List Attached) : Prop where
  stores : Stores t P
  bytes : t.snapshotBytes = t.snapshotSum
  roots : t.roots.get 0 = none
  nodup : ledger.Nodup
  mem : ∀ ns i σ, ⟨ns, i, σ⟩ ∈ ledger ↔
    (t.nodes i).slot = some σ ∧ ∃ p, P i = some (ns, p)

theorem Stores.snapshot_none (h : Stores t P) (hi : t.len ≤ i) : (t.nodes i).snapshot = none := by
  cases hsnap : (t.nodes i).snapshot with
  | none => rfl
  | some snap =>
    obtain ⟨ns, p, hP, -⟩ := h.ne_none_of_snapshot hsnap
    exact absurd (h.lt_len hP) (Nat.not_lt.mpr hi)

/-- The sum counts no index beyond the arena, so a longer range gives the same. -/
theorem Stores.sum_range (h : Stores t P) {n : ℕ} (hn : t.len ≤ n) :
    ∑ i ∈ Finset.range n, (t.nodes i).snapshot.elim 0 Snapshot.size = t.snapshotSum := by
  symm
  refine Finset.sum_subset (Finset.range_mono hn) fun i _ hi => ?_
  rw [h.snapshot_none (Nat.le_of_not_lt fun hlt => hi (Finset.mem_range.mpr hlt))]
  rfl

/-- Trees with the same snapshots hold the same number of bytes. -/
theorem snapshotSum_eq (h : Stores t P) (h' : Stores t' P')
    (hsnap : ∀ i, (t'.nodes i).snapshot = (t.nodes i).snapshot) :
    t'.snapshotSum = t.snapshotSum := by
  rw [← h'.sum_range (Nat.le_max_right t.len t'.len),
    ← h.sum_range (Nat.le_max_left t.len t'.len)]
  exact Finset.sum_congr rfl fun i _ => by rw [hsnap]

/-- Dropping the snapshots of some nodes in use takes their bytes off the sum. -/
theorem snapshotSum_drop (h : Stores t P) (h' : Stores t' P') {dropped : List ℕ}
    (hnodup : dropped.Nodup)
    (hgone : ∀ i ∈ dropped, i < t.len ∧ (t'.nodes i).snapshot = none)
    (hkept : ∀ i, i ∉ dropped → (t'.nodes i).snapshot = (t.nodes i).snapshot) :
    t.snapshotSum = t'.snapshotSum
      + (dropped.map fun i => (t.nodes i).snapshot.elim 0 Snapshot.size).sum := by
  have hsubset : dropped.toFinset ⊆ Finset.range (max t.len t'.len) := fun i hi =>
    Finset.mem_range.mpr ((hgone i (List.mem_toFinset.mp hi)).1.trans_le (Nat.le_max_left ..))
  rw [← h'.sum_range (Nat.le_max_right t.len t'.len),
    ← h.sum_range (Nat.le_max_left t.len t'.len), ← sum_toFinset _ hnodup,
    ← Finset.inter_eq_right.mpr hsubset, ← Finset.sum_ite_mem, ← Finset.sum_add_distrib]
  refine Finset.sum_congr rfl fun i _ => ?_
  split
  · next hi =>
    rw [(hgone i (List.mem_toFinset.mp hi)).2]
    exact (Nat.zero_add _).symm
  · next hi => rw [hkept i fun hmem => hi (List.mem_toFinset.mpr hmem), Nat.add_zero]

/-- Setting the snapshot of one node in use changes the sum by that node's bytes. -/
theorem snapshotSum_set (h : Stores t P) (h' : Stores t' P') (hnode : node < t.len)
    {snap : Option Snapshot}
    (hsnap : ∀ i, (t'.nodes i).snapshot = if i = node then snap else (t.nodes i).snapshot) :
    t'.snapshotSum + (t.nodes node).snapshot.elim 0 Snapshot.size
      = t.snapshotSum + snap.elim 0 Snapshot.size := by
  have hmem : node ∈ Finset.range (max t.len t'.len) :=
    Finset.mem_range.mpr (hnode.trans_le (Nat.le_max_left ..))
  rw [← h'.sum_range (Nat.le_max_right t.len t'.len),
    ← h.sum_range (Nat.le_max_left t.len t'.len), ← Finset.add_sum_erase _ _ hmem,
    ← Finset.add_sum_erase _ _ hmem, hsnap node, if_pos rfl]
  have hrest : ∑ i ∈ (Finset.range (max t.len t'.len)).erase node,
      (t'.nodes i).snapshot.elim 0 Snapshot.size
      = ∑ i ∈ (Finset.range (max t.len t'.len)).erase node,
        (t.nodes i).snapshot.elim 0 Snapshot.size :=
    Finset.sum_congr rfl fun i hi => by rw [hsnap i, if_neg (Finset.ne_of_mem_erase hi)]
  omega

/-- A node that owns a slot keeps its namespace when paths are only added. -/
theorem Stores.label_iff (h : Stores t P) (hext : Extends P P') {σ : ℕ}
    (hσ : (t.nodes i).slot = some σ) :
    (∃ p, P i = some (ns, p)) ↔ ∃ p, P' i = some (ns, p) := by
  constructor
  · rintro ⟨p, hp⟩
    exact ⟨p, hext i _ hp⟩
  · rintro ⟨p, hp⟩
    obtain ⟨ns₀, p₀, hp₀, -⟩ := h.ne_none_of_slot hσ
    have hlabel := hext i _ hp₀
    rw [hp] at hlabel
    cases hlabel
    exact ⟨p, hp₀⟩

namespace Accounts

variable {ledger : List Attached} (h : Accounts t P ledger)

include h

/-- A call that touches no slot and no snapshot keeps the books. -/
theorem keep (hs : Stores t' P') (hext : Extends P P')
    (hslot : ∀ i, (t'.nodes i).slot = (t.nodes i).slot)
    (hsnap : ∀ i, (t'.nodes i).snapshot = (t.nodes i).snapshot)
    (hbytes : t'.snapshotBytes = t.snapshotBytes) (hroots : t'.roots.get 0 = t.roots.get 0) :
    Accounts t' P' ledger where
  stores := hs
  bytes := by rw [hbytes, h.bytes, snapshotSum_eq h.stores hs hsnap]
  roots := hroots ▸ h.roots
  nodup := h.nodup
  mem ns i σ := by
    rw [hslot]
    exact (h.mem ns i σ).trans (and_congr_right fun hσ => h.stores.label_iff hext hσ)

/-- Taking the slot off one node takes its entry out of the ledger. -/
theorem release (hs : Stores t' P') (hext : Extends P' P)
    (hslot : ∀ i, (t'.nodes i).slot = if i = node then none else (t.nodes i).slot)
    (hbytes : t'.snapshotBytes = t'.snapshotSum) (hroots : t'.roots = t.roots) :
    Accounts t' P' (ledger.filter (·.node ≠ node)) where
  stores := hs
  bytes := hbytes
  roots := hroots ▸ h.roots
  nodup := h.nodup.filter _
  mem ns i σ := by
    rw [mem_filter, h.mem, hslot]
    by_cases hi : i = node
    · simp [hi]
    · simp only [hi, if_false, ne_eq, not_false_eq_true, decide_true, and_true]
      refine and_congr_right fun hσ => ?_
      -- the node still owns a slot, so it is still stored
      have hσ' : (t'.nodes i).slot = some σ := by rw [hslot, if_neg hi, hσ]
      exact (hs.label_iff hext hσ').symm

/-- Attaching a slot to a node that owned none enters it. -/
theorem attach {slot : ℕ} (hs : Stores t' P') (hext : Extends P P')
    (hnode : P' node = some (ns, p)) (hnone : (t.nodes node).slot = none)
    (hslot : ∀ i, (t'.nodes i).slot = if i = node then some slot else (t.nodes i).slot)
    (hsnap : ∀ i, (t'.nodes i).snapshot = (t.nodes i).snapshot)
    (hbytes : t'.snapshotBytes = t.snapshotBytes) (hroots : t'.roots.get 0 = t.roots.get 0) :
    Accounts t' P' (⟨ns, node, slot⟩ :: ledger) where
  stores := hs
  bytes := by rw [hbytes, h.bytes, snapshotSum_eq h.stores hs hsnap]
  roots := hroots ▸ h.roots
  nodup := by
    refine nodup_cons.mpr ⟨fun hmem => ?_, h.nodup⟩
    have hσ := ((h.mem ns node slot).mp hmem).1
    rw [hnone] at hσ
    cases hσ
  mem ns' i σ := by
    rw [mem_cons, h.mem, hslot, Attached.mk.injEq]
    by_cases hi : i = node
    · subst i
      simp only [if_true, hnone, reduceCtorEq, false_and, or_false, true_and, hnode,
        some.injEq, Prod.mk.injEq]
      constructor
      · rintro ⟨rfl, rfl⟩
        exact ⟨rfl, p, rfl, rfl⟩
      · rintro ⟨rfl, p', rfl, rfl⟩
        exact ⟨rfl, rfl⟩
    · simp only [hi, false_and, and_false, false_or, if_false]
      exact and_congr_right fun hσ => h.stores.label_iff hext hσ

end Accounts

/-! ### What each call keeps -/

variable {ledger : List Attached}

/-- The empty path ends at the root, which takes no slot. -/
theorem insert_nil (h : Stores t P) (slot : ℕ) :
    ∃ P', t.insert ns [] slot
        = some ((t.rootOrInsert ns).1, (t.rootOrInsert ns).2, false) ∧
      Stores (t.rootOrInsert ns).1 P' ∧ Extends P P' ∧ SamePayload t (t.rootOrInsert ns).1 := by
  obtain ⟨P', hs, hnode, hext, hsame⟩ := rootOrInsert_spec h ns
  have hroot : (t.rootOrInsert ns).1.isRoot (t.rootOrInsert ns).2 = true :=
    (hs.isRoot_iff hnode).mpr rfl
  refine ⟨P', ?_, hs, hext, hsame⟩
  simp [insert, insertFrom, PrefixTree.attach, hroot]

theorem Accounts.insert (h : Accounts t P ledger) (ns : Namespace) (tokens : List Token)
    (slot : ℕ) : ∃ t' node attached P', t.insert ns tokens slot = some (t', node, attached) ∧
      Accounts t' P' ((Op.insert ns tokens slot).account ledger (.node node attached)) := by
  by_cases htokens : tokens = []
  · subst htokens
    obtain ⟨P', heq, hs, hext, hsame⟩ := insert_nil h.stores slot
    exact ⟨_, _, false, P', heq, h.keep hs hext hsame.slot hsame.snapshot hsame.snapshotBytes
      (rootOrInsert_roots t ns)⟩
  · obtain ⟨t', node, attached, P', heq, hs, hnode, hext, hins⟩ :=
      insert_spec h.stores htokens slot
    refine ⟨t', node, attached, P', heq, ?_⟩
    cases attached with
    | true =>
      exact h.attach hs hext hnode (hins.attached_iff.mp rfl) (by simpa using hins.slot)
        hins.snapshot hins.snapshotBytes (insert_roots heq)
    | false =>
      exact h.keep hs hext (by simpa using hins.slot) hins.snapshot hins.snapshotBytes
        (insert_roots heq)

theorem Accounts.remove (h : Accounts t P ledger) (hnode : t.Holds node) :
    ∃ t' P', t.remove node = some t' ∧ Accounts t' P' (ledger.filter (·.node ≠ node)) := by
  obtain ⟨ns, p, hi, hp⟩ := h.stores.holds_iff.mp hnode
  obtain ⟨t', P', heq, hs, hext, hdrop⟩ := remove_spec h.stores hi hp
  have hsum := snapshotSum_set h.stores hs (h.stores.lt_len hi) hdrop.snapshot
  refine ⟨t', P', heq, h.release hs hext hdrop.slot ?_ (remove_roots heq)⟩
  rw [hdrop.snapshotBytes, h.bytes, ← Nat.add_zero t.snapshotSum]
  exact Nat.sub_eq_of_eq_add hsum.symm

theorem Accounts.detachSlot (h : Accounts t P ledger) (hnode : t.Holds node) :
    Accounts (t.detachSlot node) P (ledger.filter (·.node ≠ node)) := by
  obtain ⟨ns, p, hi, hp⟩ := h.stores.holds_iff.mp hnode
  have hs : Stores (t.detachSlot node) P := h.stores.setPayload hi hp fun _ =>
    ⟨rfl, rfl, rfl, rfl, rfl⟩
  have hnodes : ∀ i, (t.detachSlot node).nodes i =
      if i = node then { t.nodes node with slot := none } else t.nodes i :=
    fun i => setNode_nodes t node i _
  have hsnap : ∀ i, ((t.detachSlot node).nodes i).snapshot = (t.nodes i).snapshot := by
    intro i
    rw [hnodes]
    by_cases hin : i = node <;> simp [hin]
  refine h.release hs (Extends.refl P) (fun i => ?_) ?_ rfl
  · rw [hnodes]
    by_cases hin : i = node <;> simp [hin]
  · rw [snapshotSum_eq h.stores hs hsnap, ← h.bytes]
    rfl

theorem Accounts.attachSnapshot (h : Accounts t P ledger) (hnode : t.Holds node)
    (snapshot : Snapshot) : Accounts (t.attachSnapshot node snapshot) P ledger := by
  obtain ⟨ns, p, hi, hp⟩ := h.stores.holds_iff.mp hnode
  have hs : Stores (t.attachSnapshot node snapshot) P :=
    (h.stores.setPayload (f := fun n => { n with snapshot := some snapshot }) hi hp fun _ =>
      ⟨rfl, rfl, rfl, rfl, rfl⟩).congr rfl rfl rfl rfl rfl (fun _ => ⟨rfl, rfl, rfl, rfl, rfl⟩)
        fun _ _ => rfl
  have hnodes : ∀ i, (t.attachSnapshot node snapshot).nodes i =
      if i = node then { t.nodes node with snapshot := some snapshot } else t.nodes i :=
    fun i => setNode_nodes t node i fun n => { n with snapshot := some snapshot }
  have hsnap : ∀ i, ((t.attachSnapshot node snapshot).nodes i).snapshot =
      if i = node then some snapshot else (t.nodes i).snapshot := fun i => by
    rw [hnodes]
    by_cases hin : i = node <;> simp [hin]
  have hsum := snapshotSum_set h.stores hs (h.stores.lt_len hi) hsnap
  refine ⟨hs, ?_, h.roots, h.nodup, fun ns' i σ => ?_⟩
  · -- the new snapshot is added before the old one is taken off
    have hbytes : (t.attachSnapshot node snapshot).snapshotBytes = t.snapshotBytes
        + snapshot.size - (t.nodes node).snapshot.elim 0 Snapshot.size := by
      rw [PrefixTree.attachSnapshot]
      cases (t.nodes node).snapshot <;> rfl
    rw [hbytes, h.bytes]
    exact Nat.sub_eq_of_eq_add hsum.symm
  · rw [h.mem, hnodes]
    by_cases hin : i = node <;> simp [hin]

theorem Accounts.touch (h : Accounts t P ledger) (hnode : t.Holds node) :
    Accounts (t.touch node) P ledger := by
  obtain ⟨ns, p, hi, hp⟩ := h.stores.holds_iff.mp hnode
  have hticked : Stores t.tick.1 P :=
    h.stores.congr rfl rfl rfl rfl rfl (fun _ => ⟨rfl, rfl, rfl, rfl, rfl⟩) fun _ _ => rfl
  have hs : Stores (t.touch node) P :=
    hticked.setPayload (f := fun n => { n with lastUse := t.clock + 1 }) hi hp fun _ =>
      ⟨rfl, rfl, rfl, rfl, rfl⟩
  have hnodes : ∀ i, (t.touch node).nodes i =
      if i = node then { t.nodes node with lastUse := t.clock + 1 } else t.nodes i :=
    fun i => setNode_nodes t.tick.1 node i fun n => { n with lastUse := t.clock + 1 }
  refine h.keep hs (Extends.refl P) (fun i => ?_) (fun i => ?_) rfl rfl <;>
    · rw [hnodes]
      by_cases hin : i = node <;> simp [hin]

theorem Accounts.pinNode (h : Accounts t P ledger) (hi : P node = some (ns, p)) (hp : p ≠ []) :
    Accounts (t.pinNode node).1 P ledger := by
  obtain ⟨hs, hsame⟩ := pinNode_spec h.stores hi hp
  exact h.keep hs (Extends.refl P) hsame.slot hsame.snapshot hsame.snapshotBytes rfl

theorem Accounts.unpin (h : Accounts t P ledger) (id : PinId) :
    Accounts (t.unpin id).1 P ledger := by
  obtain ⟨hs, hsame⟩ := unpin_spec h.stores id
  have hroots : (t.unpin id).1.roots = t.roots := by
    unfold PrefixTree.unpin
    split <;> rfl
  exact h.keep hs (Extends.refl P) hsame.slot hsame.snapshot hsame.snapshotBytes
    (by rw [hroots])

theorem accounts_empty (hnodes : t.nodes = fun _ => {}) (hlen : t.len = 1) (hfree : t.free = [])
    (hpins : t.pins = ∅) (hroots : t.roots = ∅) (hbytes : t.snapshotBytes = 0) :
    Accounts t emptyLabels [] where
  stores := stores_empty hnodes hlen hfree hpins hroots
  bytes := by simp [hbytes, snapshotSum, hnodes]
  roots := by simp [hroots]
  nodup := nodup_nil
  mem ns i σ := by simp [hnodes]

/-! ### Dropping a namespace -/

/-- The byte counter loses what the dropped nodes held. -/
theorem dropNodes_bytes (t : PrefixTree) (dropped : List ℕ) :
    (t.dropNodes dropped).snapshotBytes = t.snapshotBytes
      - (dropped.map fun i => (t.nodes i).snapshot.elim 0 Snapshot.size).sum := by
  show dropped.foldl _ t.snapshotBytes = _
  generalize t.snapshotBytes = bytes
  induction dropped generalizing bytes with
  | nil => rfl
  | cons i dropped ih =>
    rw [foldl_cons, ih, map_cons, sum_cons, Nat.sub_sub]

/-- What dropping an existing namespace does to the counters, and the slots it returns. -/
theorem dropNamespace_eq (h : Stores t P) (hroot : t.root ns = some r) :
    ∃ t', ∃ dropped : List ℕ,
      t.dropNamespace ns = some (t', dropped.filterMap fun i => (t.nodes i).slot) ∧
      dropped.Nodup ∧ (∀ i, i ∈ dropped ↔ ∃ q, P i = some (ns, q) ∧ q ≠ []) ∧
      t'.snapshotBytes = t.snapshotBytes
        - (dropped.map fun i => (t.nodes i).snapshot.elim 0 Snapshot.size).sum ∧
      (t.roots.get 0 = none → t'.roots.get 0 = none) := by
  obtain ⟨dropped, hv, hnodup, hmem⟩ := visit_root h ((h.root_iff ns r).mp hroot)
  simp only [dropNamespace, hroot, hv, map_some]
  split
  · exact ⟨_, dropped, rfl, hnodup, hmem, dropNodes_bytes t dropped, id⟩
  · refine ⟨_, dropped, rfl, hnodup, hmem, dropNodes_bytes t dropped, fun h0 => ?_⟩
    show (t.roots.erase ns).get 0 = none
    rw [Map.get_erase, h0, ite_self]

/-- The slots of the ledger's entries in `ns`, in the order of the nodes. -/
theorem Accounts.slots_perm (h : Accounts t P ledger) {kept : Attached → Bool} {nodes : List ℕ}
    (hnodup : nodes.Nodup) (hmem : ∀ e ∈ ledger, e.node ∈ nodes ↔ kept e)
    (howns : ∀ i ∈ nodes, ∀ σ, (t.nodes i).slot = some σ → ∃ ns, ⟨ns, i, σ⟩ ∈ ledger) :
    (nodes.filterMap fun i => (t.nodes i).slot).Perm ((ledger.filter kept).map (·.slot)) := by
  have hslot : ∀ e ∈ ledger, (t.nodes e.node).slot = some e.slot := fun e he =>
    ((h.mem e.ns e.node e.slot).mp he).1
  have hinj : ∀ e ∈ ledger, ∀ e' ∈ ledger, e.node = e'.node → e = e' := by
    intro e he e' he' hnode
    obtain ⟨hσ, p, hp⟩ := (h.mem e.ns e.node e.slot).mp he
    obtain ⟨hσ', p', hp'⟩ := (h.mem e'.ns e'.node e'.slot).mp he'
    rw [← hnode] at hσ' hp'
    rw [hσ] at hσ'
    rw [hp] at hp'
    cases e
    cases e'
    cases hσ'
    cases hp'
    cases hnode
    rfl
  -- the nodes of the kept entries are the nodes that own a slot
  have hnodes : ((ledger.filter kept).map (·.node)).Perm
      (nodes.filter fun i => (t.nodes i).slot.isSome) := by
    refine (perm_ext_iff_of_nodup ?_ (hnodup.filter _)).mpr fun i => ?_
    · exact (h.nodup.filter _).map_on fun e he e' he' =>
        hinj e (mem_of_mem_filter he) e' (mem_of_mem_filter he')
    · simp only [List.mem_map, mem_filter]
      constructor
      · rintro ⟨e, ⟨he, hkept⟩, rfl⟩
        exact ⟨(hmem e he).mpr hkept, by rw [hslot e he]; rfl⟩
      · rintro ⟨hi, hsome⟩
        obtain ⟨σ, hσ⟩ := isSome_iff_exists.mp hsome
        obtain ⟨ns, he⟩ := howns i hi σ hσ
        exact ⟨_, ⟨he, (hmem _ he).mp hi⟩, rfl⟩
  have hmap : (ledger.filter kept).map (·.slot)
      = ((ledger.filter kept).map (·.node)).filterMap fun i => (t.nodes i).slot := by
    rw [filterMap_map, ← filterMap_eq_map]
    refine filterMap_congr fun e he => ?_
    exact (hslot e (mem_of_mem_filter he)).symm
  have hsome : nodes.filterMap (fun i => (t.nodes i).slot)
      = (nodes.filter fun i => (t.nodes i).slot.isSome).filterMap fun i => (t.nodes i).slot := by
    rw [filterMap_filter]
    refine filterMap_congr fun i _ => ?_
    cases (t.nodes i).slot <;> rfl
  rw [hmap, hsome]
  exact (hnodes.filterMap _).symm

theorem Accounts.dropNamespace (h : Accounts t P ledger) (ns : Namespace) :
    ∃ t' slots P', t.dropNamespace ns = some (t', slots) ∧
      Accounts t' P' (ledger.filter (·.ns ≠ ns)) ∧
      slots.Perm ((ledger.filter (·.ns = ns)).map (·.slot)) := by
  obtain ⟨t', slots, P', heq, hs, hext, hgone, hdrop⟩ := dropNamespace_spec h.stores ns
  have hlabel : ∀ i ns' p, P i = some (ns', p) → ns' ≠ ns →
      (P i).map Prod.fst ≠ some ns := by
    intro i ns' p hi hne hmap
    rw [hi] at hmap
    exact hne (some.inj hmap)
  have hmem : ∀ ns' i σ, ⟨ns', i, σ⟩ ∈ ledger.filter (·.ns ≠ ns) ↔
      (t'.nodes i).slot = some σ ∧ ∃ p, P' i = some (ns', p) := by
    intro ns' i σ
    rw [mem_filter, h.mem, hdrop.slot]
    constructor
    · rintro ⟨⟨hσ, p, hp⟩, hne⟩
      have hother := hlabel i ns' p hp (of_decide_eq_true hne)
      have hσ' : (t'.nodes i).slot = some σ := by rw [hdrop.slot, if_neg hother, hσ]
      exact ⟨by rw [if_neg hother, hσ], (hs.label_iff hext hσ').mpr ⟨p, hp⟩⟩
    · rintro ⟨hσ, p, hp⟩
      split at hσ
      · cases hσ
      · next hother =>
        refine ⟨⟨hσ, p, hext i _ hp⟩, decide_eq_true ?_⟩
        rintro rfl
        exact hother (by rw [hext i _ hp]; rfl)
  cases hroot : t.root ns with
  | none =>
    have hsame : t.dropNamespace ns = some (t, []) := by simp [PrefixTree.dropNamespace, hroot]
    rw [hsame] at heq
    cases heq
    refine ⟨t, [], P', hsame, ⟨hs, h.bytes, h.roots, h.nodup.filter _, hmem⟩, ?_⟩
    have hnone : ledger.filter (·.ns = ns) = [] := by
      refine filter_eq_nil_iff.mpr fun e he hns => ?_
      obtain ⟨-, p, hp⟩ := (h.mem e.ns e.node e.slot).mp he
      obtain ⟨r, hr⟩ := exists_root h.stores hp
      rw [of_decide_eq_true hns, hroot] at hr
      cases hr
    rw [hnone]
    exact Perm.refl _
  | some r =>
    obtain ⟨t₁, dropped, heq₁, hnodup, hdropped, hbytes, hroots⟩ := dropNamespace_eq h.stores hroot
    rw [heq₁] at heq
    cases heq
    refine ⟨_, _, P', heq₁, ⟨hs, ?_, hroots h.roots, h.nodup.filter _, hmem⟩, ?_⟩
    · have hsum := snapshotSum_drop h.stores hs hnodup (fun i hi => ?_) fun i hi => ?_
      · rw [hbytes, h.bytes]
        exact Nat.sub_eq_of_eq_add hsum
      · obtain ⟨q, hq, -⟩ := (hdropped i).mp hi
        exact ⟨h.stores.lt_len hq, by rw [hdrop.snapshot, if_pos (by rw [hq]; rfl)]⟩
      · rw [hdrop.snapshot]
        split
        · next hmap =>
          -- what the walk leaves of the namespace is its root, which holds nothing
          obtain ⟨⟨ns', q⟩, hq, rfl⟩ := map_eq_some_iff.mp hmap
          by_cases hne : q = []
          · subst hne
            exact (h.stores.root_blank i _ hq).2.1.symm
          · exact absurd ((hdropped i).mpr ⟨q, hq, hne⟩) hi
        · rfl
    · refine h.slots_perm hnodup (fun e he => ?_) fun i hi σ hσ => ?_
      · rw [hdropped, decide_eq_true_eq]
        obtain ⟨hσ, p, hp⟩ := (h.mem e.ns e.node e.slot).mp he
        constructor
        · rintro ⟨q, hq, -⟩
          rw [hp] at hq
          cases hq
          rfl
        · rintro hns
          obtain ⟨ns', q, hq, hne⟩ := h.stores.ne_none_of_slot hσ
          rw [hp] at hq
          cases hq
          exact ⟨p, hns ▸ hp, hne⟩
      · obtain ⟨q, hq, -⟩ := (hdropped i).mp hi
        exact ⟨ns, (h.mem ns i σ).mpr ⟨hσ, q, hq⟩⟩

theorem Accounts.clear (h : Accounts t P ledger) :
    t.clear.2.Perm (ledger.map (·.slot)) := by
  have hperm := @Accounts.slots_perm t P ledger h (fun _ => true) (List.range t.len)
    nodup_range (fun e he => ?_) fun i hi σ hσ => ?_
  · rw [filter_true] at hperm
    exact hperm
  · obtain ⟨hσ, -⟩ := (h.mem e.ns e.node e.slot).mp he
    simpa using h.stores.lt_len_of_slot hσ
  · obtain ⟨ns, p, hp, -⟩ := h.stores.ne_none_of_slot hσ
    exact ⟨ns, (h.mem ns i σ).mpr ⟨hσ, p, hp⟩⟩

/-- Every call the scheduler issues is answered and keeps the books. -/
theorem Accounts.apply (h : Accounts t P ledger) {op : Op} (hop : op.Issued t) :
    ∃ t' reply P', t.apply op = some (t', reply) ∧ Accounts t' P' (op.account ledger reply) := by
  cases op with
  | insert ns tokens slot =>
    obtain ⟨t', node, attached, P', heq, h'⟩ := h.insert ns tokens slot
    exact ⟨t', _, P', by rw [PrefixTree.apply, heq]; rfl, h'⟩
  | remove node =>
    obtain ⟨t', P', heq, h'⟩ := h.remove hop
    exact ⟨t', _, P', by rw [PrefixTree.apply, heq]; rfl, h'⟩
  | detachSlot node => exact ⟨_, _, P, rfl, h.detachSlot hop⟩
  | attachSnapshot node snapshot => exact ⟨_, _, P, rfl, h.attachSnapshot hop snapshot⟩
  | pinAt ns tokens =>
    obtain ⟨found, heq, hfound⟩ := findExact_spec h.stores ns tokens
    cases found with
    | none => exact ⟨t, .pin none, P, by simp [PrefixTree.apply, PrefixTree.pinAt, heq], h⟩
    | some node =>
      obtain ⟨hi, hp⟩ := hfound node rfl
      exact ⟨_, .pin (some (t.pinNode node).2), P,
        by simp [PrefixTree.apply, PrefixTree.pinAt, heq], h.pinNode hi hp⟩
  | pinNode node =>
    obtain ⟨ns, p, hi, hp⟩ := h.stores.holds_iff.mp hop
    exact ⟨_, _, P, rfl, h.pinNode hi hp⟩
  | unpin id => exact ⟨_, _, P, rfl, h.unpin id⟩
  | touch node => exact ⟨_, _, P, rfl, h.touch hop⟩
  | dropNamespace ns =>
    obtain ⟨t', slots, P', heq, h', -⟩ := h.dropNamespace ns
    exact ⟨t', .slots slots, P', by rw [PrefixTree.apply, heq]; rfl, h'⟩
  | clear =>
    exact ⟨_, _, emptyLabels, rfl, accounts_empty rfl rfl rfl rfl rfl rfl⟩

/-- Every tree of a run stores some paths, and its books are right. -/
theorem Run.accounts (hrun : Run t ledger) : ∃ P, Accounts t P ledger := by
  induction hrun with
  | new => exact ⟨emptyLabels, accounts_empty rfl rfl rfl rfl rfl rfl⟩
  | step hrun hop heq ih =>
    obtain ⟨P, h⟩ := ih
    obtain ⟨t', reply, P', heq', h'⟩ := h.apply hop
    rw [heq] at heq'
    cases heq'
    exact ⟨P', h'⟩

/-! ### The representation invariant -/

/-- The representation invariant of a tree whose attached slots are those of `ledger`. -/
structure WellFormed (t : PrefixTree) (ledger : List Attached) : Prop where
  /-- One way from one root leads to a node in use. -/
  reached : ∀ i < t.len, i ∉ t.free →
    ∃! way : Namespace × List Token, ∃ path, t.At way.1 way.2 i path
  keyed : ∀ ns keys i path a c, t.At ns keys i path → (t.nodes i).children.get a = some c →
    (t.nodes c).edge.head? = some a ∧ (t.nodes c).parent = i
  depth : ∀ ns keys i path a c, t.At ns keys i path → (t.nodes i).children.get a = some c →
    (t.nodes c).depth = (t.nodes i).depth + (t.nodes c).edge.length
  distinct : ∀ ns keys keys' i j path, t.At ns keys i path → t.At ns keys' j path → i = j
  free_nodup : t.free.Nodup
  free_unreached : ∀ ns keys i path, t.At ns keys i path → i < t.len ∧ i ∉ t.free
  snapshotBytes : t.snapshotBytes = t.snapshotSum
  pins : ∀ i, (t.nodes i).pins = t.pins.count i
  /-- The count of the reachable nodes but the roots, and no step of its computation is
  negative. -/
  nodeCount : t.nodeCount = {i | ∃ ns keys path, t.At ns keys i path ∧ keys ≠ []}.ncard ∧
    1 + t.roots.size + t.free.length ≤ t.len
  dropped : ∀ ns, ∃ t' slots, t.dropNamespace ns = some (t', slots) ∧
    slots.Perm ((ledger.filter (·.ns = ns)).map (·.slot))
  cleared : t.clear.2.Perm (ledger.map (·.slot))

theorem Stores.keys_nil_iff (h : Stores t P) (hat : t.At ns keys i path) :
    keys = [] ↔ path = [] := by
  obtain ⟨r, hr, hfollow⟩ := hat
  cases keys with
  | nil => cases hfollow; simp
  | cons a keys =>
    obtain ⟨c, rest, hget, -, rfl⟩ := follow_cons_eq_some hfollow
    obtain ⟨edge, hedge, -⟩ := h.child_path ((h.root_iff ns r).mp hr) hget
    simp [hedge]

/-- The node of each namespace root, namespace 0 first. -/
private def rootNodes (t : PrefixTree) : List ℕ := 0 :: t.roots.entries.map Sigma.snd

private theorem mem_rootNodes (h : Stores t P) (h0 : t.roots.get 0 = none) :
    i ∈ t.rootNodes ↔ ∃ ns, P i = some (ns, []) := by
  have hroot : ∀ ns, ns ≠ 0 → t.root ns = t.roots.get ns := fun ns hns => if_neg hns
  constructor
  · intro hi
    rcases mem_cons.mp hi with rfl | hi
    · exact ⟨0, (h.root_iff 0 0).mp rfl⟩
    · obtain ⟨⟨ns, i⟩, he, rfl⟩ := List.mem_map.mp hi
      have hget := Map.mem_entries.mp he
      have hns : ns ≠ 0 := by
        rintro rfl
        rw [h0] at hget
        cases hget
      exact ⟨ns, (h.root_iff ns i).mp ((hroot ns hns).trans hget)⟩
  · rintro ⟨ns, hP⟩
    have hi := (h.root_iff ns i).mpr hP
    by_cases hns : ns = 0
    · subst hns
      cases hi
      exact mem_cons_self
    · rw [hroot ns hns] at hi
      exact mem_cons_of_mem _ (List.mem_map.mpr ⟨_, Map.mem_entries.mpr hi, rfl⟩)

private theorem rootNodes_nodup (h : Stores t P) (h0 : t.roots.get 0 = none) :
    t.rootNodes.Nodup := by
  have hlabel : ∀ e ∈ t.roots.entries, e.1 ≠ 0 ∧ P e.2 = some (e.1, []) := by
    rintro ⟨ns, i⟩ he
    have hget := Map.mem_entries.mp he
    have hns : ns ≠ 0 := by
      rintro rfl
      rw [h0] at hget
      cases hget
    exact ⟨hns, (h.root_iff ns i).mp ((if_neg hns).trans hget)⟩
  refine nodup_cons.mpr ⟨fun hmem => ?_, (Map.entries_nodup t.roots).map_on ?_⟩
  · obtain ⟨e, he, he0⟩ := List.mem_map.mp hmem
    obtain ⟨hns, hP⟩ := hlabel e he
    rw [he0, (h.root_iff 0 0).mp rfl] at hP
    cases e
    cases hP
    exact hns rfl
  · rintro ⟨ns, i⟩ he ⟨ns', i'⟩ he' (rfl : i = i')
    have hP := (hlabel _ he).2
    rw [(hlabel _ he').2] at hP
    cases hP
    rfl

/-- The arena is the free indices, the roots and the other nodes in use. -/
theorem Accounts.nodeCount (h : Accounts t P ledger) :
    t.nodeCount = {i | ∃ ns keys path, t.At ns keys i path ∧ keys ≠ []}.ncard ∧
      1 + t.roots.size + t.free.length ≤ t.len := by
  obtain ⟨others, hothers⟩ : ∃ others, others =
    (List.range t.len).filter fun i => decide (t.Holds i) := ⟨_, rfl⟩
  have hnodup : others.Nodup := hothers ▸ nodup_range.filter _
  have hmem : ∀ i, i ∈ others ↔ ∃ ns p, P i = some (ns, p) ∧ p ≠ [] := by
    intro i
    rw [hothers, mem_filter, decide_eq_true_eq, h.stores.holds_iff, mem_range,
      and_iff_right_of_imp]
    rintro ⟨ns, p, hi, -⟩
    exact h.stores.lt_len hi
  have hset : {i | ∃ ns keys path, t.At ns keys i path ∧ keys ≠ []} = ↑others.toFinset := by
    ext i
    rw [Set.mem_ofPred_eq, Finset.mem_coe, List.mem_toFinset, hmem]
    constructor
    · rintro ⟨ns, keys, path, hat, hkeys⟩
      exact ⟨ns, path, h.stores.at_label hat, mt (h.stores.keys_nil_iff hat).mpr hkeys⟩
    · rintro ⟨ns, p, hi, hp⟩
      obtain ⟨keys, hat⟩ := h.stores.exists_at hi
      exact ⟨ns, keys, p, hat, mt (h.stores.keys_nil_iff hat).mp hp⟩
  have hperm : (t.free ++ (t.rootNodes ++ others)).Perm (List.range t.len) := by
    refine (perm_ext_iff_of_nodup ?_ nodup_range).mpr fun i => ?_
    · refine nodup_append.mpr ⟨h.stores.free_nodup, nodup_append.mpr
        ⟨rootNodes_nodup h.stores h.roots, hnodup, ?_⟩, ?_⟩
      · rintro i hi j hj rfl
        obtain ⟨ns, hP⟩ := (mem_rootNodes h.stores h.roots).mp hi
        obtain ⟨ns', p, hP', hp⟩ := (hmem i).mp hj
        rw [hP] at hP'
        cases hP'
        exact hp rfl
      · rintro i hi j hj rfl
        have hstored : (P i).isSome := by
          rcases mem_append.mp hj with hj | hj
          · obtain ⟨ns, hP⟩ := (mem_rootNodes h.stores h.roots).mp hj
            rw [hP]; rfl
          · obtain ⟨ns', p, hP', -⟩ := (hmem i).mp hj
            rw [hP']; rfl
        exact ((h.stores.dom i).mp hstored).2 hi
    · rw [mem_append, mem_append, mem_range, mem_rootNodes h.stores h.roots, hmem]
      constructor
      · rintro (hi | ⟨ns, hP⟩ | ⟨ns, p, hP, -⟩)
        · exact h.stores.free_lt i hi
        · exact h.stores.lt_len hP
        · exact h.stores.lt_len hP
      · intro hlt
        by_cases hfree : i ∈ t.free
        · exact .inl hfree
        · obtain ⟨⟨ns, p⟩, hP⟩ := isSome_iff_exists.mp ((h.stores.dom i).mpr ⟨hlt, hfree⟩)
          by_cases hp : p = []
          · exact .inr (.inl ⟨ns, hp ▸ hP⟩)
          · exact .inr (.inr ⟨ns, p, hP, hp⟩)
  have hlen := hperm.length_eq
  have hroots : t.rootNodes.length = 1 + t.roots.size := by
    rw [rootNodes, length_cons, length_map, Nat.add_comm]
    rfl
  rw [length_append, length_append, length_range, hroots] at hlen
  rw [hset, Set.ncard_coe_finset, toFinset_card_of_nodup hnodup, PrefixTree.nodeCount]
  omega

/-- After every sequence of calls the scheduler can issue, the tree is well formed, the slots
that clearing it or dropping a namespace returns are those attached there and not detached
since, and the next call is answered. -/
theorem tree_wellFormed {t : PrefixTree} {ledger : List Attached} (hrun : Run t ledger) :
    WellFormed t ledger ∧
      ∀ op : Op, op.Issued t → ∃ t' reply, t.apply op = some (t', reply) ∧
        Run t' (op.account ledger reply) := by
  obtain ⟨P, h⟩ := hrun.accounts
  have hs := h.stores
  refine ⟨?_, fun op hop => ?_⟩
  · constructor
    case reached =>
      intro i hlt hfree
      obtain ⟨⟨ns, p⟩, hP⟩ := Option.isSome_iff_exists.mp ((hs.dom i).mpr ⟨hlt, hfree⟩)
      obtain ⟨keys, hat⟩ := hs.exists_at hP
      refine ⟨(ns, keys), ⟨p, hat⟩, ?_⟩
      rintro ⟨ns', keys'⟩ ⟨p', hat'⟩
      have hP' := hs.at_label hat'
      rw [hP] at hP'
      cases hP'
      exact congrArg (Prod.mk _) (hs.at_unique hat' hat).1
    case keyed =>
      intro ns keys i path a c hat hget
      obtain ⟨-, hparent, hhead⟩ := hs.child i ns path a c (hs.at_label hat) hget
      exact ⟨hhead, hparent⟩
    case depth =>
      intro ns keys i path a c hat hget
      have hi := hs.at_label hat
      rw [hs.depth_eq i ns path hi, hs.depth_eq c ns _ (hs.child i ns path a c hi hget).1,
        List.length_append]
    case distinct =>
      intro ns keys keys' i j path hat hat'
      exact (hs.at_unique hat hat').2
    case free_nodup => exact hs.free_nodup
    case free_unreached =>
      intro ns keys i path hat
      exact (hs.dom i).mp (by rw [hs.at_label hat]; rfl)
    case snapshotBytes => exact h.bytes
    case pins => exact hs.pins_count
    case nodeCount => exact h.nodeCount
    case dropped =>
      intro ns
      obtain ⟨t', slots, -, heq, -, hperm⟩ := h.dropNamespace ns
      exact ⟨t', slots, heq, hperm⟩
    case cleared => exact h.clear
  · obtain ⟨t', reply, -, heq, -⟩ := h.apply hop
    exact ⟨t', reply, heq, hrun.step hop heq⟩

/-- Two paths that share their first token: the edge of the first is split, and the slots of
both are returned by dropping the namespace. -/
theorem tree_wellFormed_split :
    ∃ t, t.len = 4 ∧ WellFormed t [⟨0, 3, 6⟩, ⟨0, 1, 5⟩] := by
  have hrun : Run _ [⟨0, 3, 6⟩, ⟨0, 1, 5⟩] :=
    @Run.step _ _ _ (.insert 0 [1, 3] 6) _
      (@Run.step _ _ _ (.insert 0 [1, 2] 5) _ .new trivial rfl) trivial rfl
  exact ⟨_, rfl, (tree_wellFormed hrun).1⟩

end PrefixTree

end Retrograd.Infer
