import Retrograd.Infer.Kv
import Mathlib.Data.List.Perm.Subperm

/-!
# The representation invariant of the prefix tree

`Stores t P` says that the arena `t` stores the paths `P`: `P i` is the namespace and the token
path of node `i`, and `none` for an index that is free or was never used. Everything is stated
**one node at a time**: a child's path is its parent's followed by its edge, a parent knows its
child under the first token of that edge, and a node's pin count is the number of pins on it.

Each operation keeps the invariant under paths that are said explicitly, and its specification
gives the payload of **every** node afterwards: insertion only adds paths, pruning only removes
paths that hold nothing, dropping a namespace removes exactly its paths.
-/

namespace Retrograd.Infer

open Logic

/-- The namespace and path of each stored node. -/
abbrev Labels := ℕ → Option (Namespace × List Token)

namespace PrefixTree

variable {t t' : PrefixTree} {P P' : Labels} {ns : Namespace} {p q : List Token} {i j : ℕ}

/-- The arena `t` stores the paths `P`. -/
structure Stores (t : PrefixTree) (P : Labels) : Prop where
  dom : ∀ i, (P i).isSome ↔ i < t.len ∧ i ∉ t.free
  blank : ∀ i, P i = none → t.nodes i = {}
  free_lt : ∀ i ∈ t.free, i < t.len
  free_nodup : t.free.Nodup
  root_iff : ∀ ns i, t.root ns = some i ↔ P i = some (ns, [])
  root_blank : ∀ i ns, P i = some (ns, []) →
    (t.nodes i).slot = none ∧ (t.nodes i).snapshot = none ∧ (t.nodes i).pins = 0
  edge_nil : ∀ i ns p, P i = some (ns, p) → ((t.nodes i).edge = [] ↔ p = [])
  depth_eq : ∀ i ns p, P i = some (ns, p) → (t.nodes i).depth = p.length
  child : ∀ i ns p a c, P i = some (ns, p) → (t.nodes i).children.get a = some c →
    P c = some (ns, p ++ (t.nodes c).edge) ∧ (t.nodes c).parent = i ∧
      (t.nodes c).edge.head? = some a
  parent : ∀ c ns q, P c = some (ns, q) → q ≠ [] →
    ∃ p a, P (t.nodes c).parent = some (ns, p) ∧ q = p ++ (t.nodes c).edge ∧
      (t.nodes (t.nodes c).parent).children.get a = some c
  pins_count : ∀ i, (t.nodes i).pins = t.pins.count i
  pin_lt : ∀ id i, t.pins.get id = some i → id < t.nextPin

/-- The two trees have the same slots, snapshots and pins at every node. -/
structure SamePayload (t t' : PrefixTree) : Prop where
  slot : ∀ i, (t'.nodes i).slot = (t.nodes i).slot
  snapshot : ∀ i, (t'.nodes i).snapshot = (t.nodes i).snapshot
  nodePins : ∀ i, (t'.nodes i).pins = (t.nodes i).pins
  pins : t'.pins = t.pins
  nextPin : t'.nextPin = t.nextPin
  clock : t'.clock = t.clock
  snapshotBytes : t'.snapshotBytes = t.snapshotBytes

theorem SamePayload.refl (t : PrefixTree) : SamePayload t t :=
  ⟨fun _ => rfl, fun _ => rfl, fun _ => rfl, rfl, rfl, rfl, rfl⟩

theorem SamePayload.trans {t'' : PrefixTree} (h : SamePayload t t') (h' : SamePayload t' t'') :
    SamePayload t t'' :=
  ⟨fun i => (h'.slot i).trans (h.slot i), fun i => (h'.snapshot i).trans (h.snapshot i),
    fun i => (h'.nodePins i).trans (h.nodePins i), h'.pins.trans h.pins,
    h'.nextPin.trans h.nextPin, h'.clock.trans h.clock, h'.snapshotBytes.trans h.snapshotBytes⟩

/-- Every path of `P` is kept by `P'`. -/
def Extends (P P' : Labels) : Prop := ∀ i l, P i = some l → P' i = some l

theorem Extends.refl (P : Labels) : Extends P P := fun _ _ h => h

theorem Extends.trans {P'' : Labels} (h : Extends P P') (h' : Extends P' P'') : Extends P P'' :=
  fun i l hi => h' i l (h i l hi)

/-! ### Single-node updates -/

@[simp] theorem setNode_nodes (t : PrefixTree) (i j : ℕ) (f : Node → Node) :
    (t.setNode i f).nodes j = if j = i then f (t.nodes i) else t.nodes j :=
  Function.update_apply ..

@[simp] theorem setNode_len (t : PrefixTree) (i : ℕ) (f : Node → Node) :
    (t.setNode i f).len = t.len := rfl

@[simp] theorem setNode_free (t : PrefixTree) (i : ℕ) (f : Node → Node) :
    (t.setNode i f).free = t.free := rfl

@[simp] theorem setNode_pins (t : PrefixTree) (i : ℕ) (f : Node → Node) :
    (t.setNode i f).pins = t.pins := rfl

@[simp] theorem setNode_roots (t : PrefixTree) (i : ℕ) (f : Node → Node) :
    (t.setNode i f).roots = t.roots := rfl

@[simp] theorem setNode_root (t : PrefixTree) (i : ℕ) (f : Node → Node) (ns : Namespace) :
    (t.setNode i f).root ns = t.root ns := rfl

namespace Stores

variable (h : Stores t P)

include h

theorem isRoot_iff (hi : P i = some (ns, p)) : t.isRoot i ↔ p = [] := by
  rw [isRoot, List.isEmpty_iff]
  exact h.edge_nil i ns p hi

theorem edge_ne_nil (hi : P i = some (ns, p)) (hp : p ≠ []) : (t.nodes i).edge ≠ [] :=
  fun hedge => hp ((h.edge_nil i ns p hi).mp hedge)

theorem ne_none_of_slot {σ : ℕ} (hslot : (t.nodes i).slot = some σ) :
    ∃ ns p, P i = some (ns, p) ∧ p ≠ [] := by
  cases hi : P i with
  | none => rw [h.blank i hi] at hslot; cases hslot
  | some l =>
    refine ⟨l.1, l.2, rfl, ?_⟩
    rintro hl
    rw [(h.root_blank i l.1 (by rw [hi, ← hl])).1] at hslot
    cases hslot

theorem ne_none_of_snapshot {snap : Snapshot} (hsnap : (t.nodes i).snapshot = some snap) :
    ∃ ns p, P i = some (ns, p) ∧ p ≠ [] := by
  cases hi : P i with
  | none => rw [h.blank i hi] at hsnap; cases hsnap
  | some l =>
    refine ⟨l.1, l.2, rfl, ?_⟩
    rintro hl
    rw [(h.root_blank i l.1 (by rw [hi, ← hl])).2.1] at hsnap
    cases hsnap

theorem ne_none_of_pins (hpins : 0 < (t.nodes i).pins) :
    ∃ ns p, P i = some (ns, p) ∧ p ≠ [] := by
  cases hi : P i with
  | none => rw [h.blank i hi] at hpins; cases hpins
  | some l =>
    refine ⟨l.1, l.2, rfl, ?_⟩
    rintro hl
    rw [(h.root_blank i l.1 (by rw [hi, ← hl])).2.2] at hpins
    cases hpins

theorem lt_len (hi : P i = some (ns, p)) : i < t.len :=
  ((h.dom i).mp (by rw [hi]; rfl)).1

theorem lt_len_of_slot {σ : ℕ} (hslot : (t.nodes i).slot = some σ) : i < t.len := by
  obtain ⟨ns, p, hi, -⟩ := h.ne_none_of_slot hslot
  exact h.lt_len hi

/-- A child's path is its parent's and a non-empty edge that begins with the child's key. -/
theorem child_path {a : Token} {c : ℕ} (hi : P i = some (ns, p))
    (hc : (t.nodes i).children.get a = some c) :
    ∃ edge, (t.nodes c).edge = a :: edge ∧ P c = some (ns, p ++ a :: edge) := by
  obtain ⟨hpath, -, hhead⟩ := h.child i ns p a c hi hc
  obtain ⟨edge, hedge⟩ := List.head?_eq_some_iff.mp hhead
  exact ⟨edge, hedge, by rw [hpath, hedge]⟩

/-- The same paths are stored by every tree with the same shape. -/
theorem congr (hlen : t'.len = t.len) (hfree : t'.free = t.free) (hroots : t'.roots = t.roots)
    (hpins : t'.pins = t.pins) (hnext : t'.nextPin = t.nextPin)
    (hshape : ∀ i, (t'.nodes i).edge = (t.nodes i).edge ∧
      (t'.nodes i).parent = (t.nodes i).parent ∧ (t'.nodes i).depth = (t.nodes i).depth ∧
      (t'.nodes i).pins = (t.nodes i).pins ∧ (t'.nodes i).children = (t.nodes i).children)
    (hsame : ∀ i, (∀ ns p, P i = some (ns, p) → p = []) → t'.nodes i = t.nodes i) :
    Stores t' P := by
  have hroot : ∀ ns, t'.root ns = t.root ns := fun ns => by rw [root, root, hroots]
  constructor
  case dom => simpa only [hlen, hfree] using h.dom
  case blank =>
    intro i hi
    rw [hsame i (by simp [hi]), h.blank i hi]
  case free_lt => simpa only [hlen, hfree] using h.free_lt
  case free_nodup => simpa only [hfree] using h.free_nodup
  case root_iff => simpa only [hroot] using h.root_iff
  case root_blank =>
    intro i ns hi
    rw [hsame i (by simp [hi])]
    exact h.root_blank i ns hi
  case edge_nil => simpa only [hshape] using h.edge_nil
  case depth_eq => simpa only [hshape] using h.depth_eq
  case child => simpa only [hshape] using h.child
  case parent => simpa only [hshape] using h.parent
  case pins_count => simpa only [hshape, hpins] using h.pins_count
  case pin_lt => simpa only [hpins, hnext] using h.pin_lt

/-- A payload update of a stored node keeps the invariant. -/
theorem setPayload {f : Node → Node} (hi : P i = some (ns, p)) (hp : p ≠ [])
    (hf : ∀ n : Node, (f n).edge = n.edge ∧ (f n).parent = n.parent ∧ (f n).depth = n.depth ∧
      (f n).pins = n.pins ∧ (f n).children = n.children) : Stores (t.setNode i f) P := by
  refine h.congr rfl rfl rfl rfl rfl (fun j => ?_) fun j hj => ?_
  · rw [setNode_nodes]
    split
    · subst j
      exact hf _
    · simp
  · rw [setNode_nodes, if_neg]
    rintro rfl
    exact hp (hj ns p hi)

end Stores

/-! ### The empty tree -/

/-- The paths of a tree with nothing in it. -/
def emptyLabels : Labels := fun i => if i = 0 then some (0, []) else none

/-- A tree whose only node is the root of namespace 0. -/
theorem stores_empty (hnodes : t.nodes = fun _ => {}) (hlen : t.len = 1) (hfree : t.free = [])
    (hpins : t.pins = ∅) (hroots : t.roots = ∅) : Stores t emptyLabels := by
  have hroot : ∀ ns i, t.root ns = some i ↔ emptyLabels i = some (ns, []) := by
    intro ns i
    by_cases hns : ns = 0 <;> by_cases hi : i = 0 <;>
      simp [root, emptyLabels, hroots, hns, hi, eq_comm]
  have hlabel : ∀ i ns p, emptyLabels i = some (ns, p) → i = 0 ∧ ns = 0 ∧ p = [] := by
    intro i ns p hi
    by_cases h0 : i = 0
    · simp [emptyLabels, h0, eq_comm] at hi
      exact ⟨h0, hi.1, hi.2⟩
    · simp [emptyLabels, h0] at hi
  constructor
  case root_iff => exact hroot
  case dom => intro i; by_cases hi : i = 0 <;> simp [emptyLabels, hi, hlen, hfree]
  case parent =>
    intro c ns q hc hq
    exact absurd (hlabel c ns q hc).2.2 hq
  case edge_nil =>
    intro i ns p hi
    simp [hnodes, (hlabel i ns p hi).2.2]
  case depth_eq =>
    intro i ns p hi
    simp [hnodes, (hlabel i ns p hi).2.2]
  all_goals simp [hnodes, hfree, hpins]

theorem stores_new : Stores new emptyLabels := stores_empty rfl rfl rfl rfl rfl

end PrefixTree

end Retrograd.Infer
