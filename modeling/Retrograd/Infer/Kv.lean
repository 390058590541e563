import Retrograd.Infer.Cell
import Retrograd.Logic.Map
import Mathlib.Data.List.MinMax

/-!
# The prefix cache's radix tree

A `PrefixTree` is an arena of nodes. A node is a token path from its namespace's root; a node
**with a slot** owns a dormant sequence slot frozen at the node's end position, and a **swapped**
node keeps a host snapshot instead. Pruned indices go to a free list and are recycled. The tree
is pure data plus decisions: every backend operation is its caller's.

The walks of the source are loops whose end depends on the tree being well formed, so they take
fuel here and return `none` when it runs out; the representation invariant shows that they
never do.
-/

namespace Retrograd.Infer

open Logic

/-- A prefix-tree namespace: the adapter a path was decoded under. -/
abbrev Namespace := ℕ

/-- A pin handle; ids are never reused. -/
abbrev PinId := ℕ

/-- One node of the arena. -/
structure Node where
  /-- Edge label from the parent, empty for a root. -/
  edge : List Token := []
  parent : ℕ := 0
  /-- End position of the path: number of tokens from the root. -/
  depth : ℕ := 0
  /-- Dormant slot frozen at `depth`, if resident. -/
  slot : Option ℕ := none
  /-- Host snapshot of the boundary state, captured when the slot was evicted. -/
  snapshot : Option Snapshot := none
  /-- LRU clock value of the last use. -/
  lastUse : ℕ := 0
  /-- Pin count; pinned nodes are never evicted. -/
  pins : ℕ := 0
  /-- First token of the child edge to child node index. -/
  children : Map Token ℕ := ∅

instance : Inhabited Node := ⟨{}⟩

/-- The radix tree of resident prefixes. -/
structure PrefixTree where
  nodes : ℕ → Node
  /-- How many indices of `nodes` are in use or free. -/
  len : ℕ
  /-- Indices of pruned nodes, the next one to reuse first. -/
  free : List ℕ
  /-- Live pins: id to node. -/
  pins : Map PinId ℕ
  nextPin : PinId
  clock : ℕ
  snapshotBytes : ℕ
  /-- Roots of the namespaces other than 0, whose root is the node 0. -/
  roots : Map Namespace ℕ

/-- Length of the common head of an edge and the remaining prompt. -/
def commonLen : List Token → List Token → ℕ
  | a :: edge, b :: tokens => if a = b then commonLen edge tokens + 1 else 0
  | _, _ => 0

namespace PrefixTree

/-- The tree of a fresh scheduler: the root of namespace 0 alone. -/
def new : PrefixTree :=
  { nodes := fun _ => {}, len := 1, free := [], pins := ∅, nextPin := 1, clock := 0,
    snapshotBytes := 0, roots := ∅ }

/-- Replaces one node by its image under `f`. -/
def setNode (t : PrefixTree) (i : ℕ) (f : Node → Node) : PrefixTree :=
  { t with nodes := Function.update t.nodes i (f (t.nodes i)) }

/-- The root of `ns`, if the namespace holds anything. -/
def root (t : PrefixTree) (ns : Namespace) : Option ℕ :=
  if ns = 0 then some 0 else t.roots.get ns

def isRoot (t : PrefixTree) (i : ℕ) : Bool := (t.nodes i).edge.isEmpty

/-- Advances the LRU clock and returns its new value. -/
def tick (t : PrefixTree) : PrefixTree × ℕ := ({ t with clock := t.clock + 1 }, t.clock + 1)

/-- Stores a node at a recycled index, or at a new one. -/
def alloc (t : PrefixTree) (node : Node) : PrefixTree × ℕ :=
  match t.free with
  | i :: free => ({ t with nodes := Function.update t.nodes i node, free }, i)
  | [] => ({ t with nodes := Function.update t.nodes t.len node, len := t.len + 1 }, t.len)

/-- The root of `ns`, created on first use. -/
def rootOrInsert (t : PrefixTree) (ns : Namespace) : PrefixTree × ℕ :=
  match t.root ns with
  | some root => (t, root)
  | none =>
    let (t, root) := t.alloc {}
    let t := t.setNode root fun node => { node with parent := root }
    ({ t with roots := t.roots.insert ns root }, root)

/-! ### Lookup -/

/-- The nodes a depth-first walk from `stack` pops, in order; the head of `stack` is its top. -/
def visit (t : PrefixTree) : ℕ → List ℕ → Option (List ℕ)
  | _, [] => some []
  | 0, _ :: _ => none
  | fuel + 1, i :: stack =>
    (t.visit fuel ((t.nodes i).children.values.reverse ++ stack)).map (i :: ·)

/-- The deepest slot-bearing node of `node`'s subtree, the first popped of equals. -/
def deepestSlotInSubtree (t : PrefixTree) (node : ℕ) : Option (Option ℕ) :=
  (t.visit t.len [node]).map fun visited =>
    visited.foldl (fun best i =>
      if (t.nodes i).slot.isSome && best.all fun b => (t.nodes b).depth < (t.nodes i).depth then
        some i
      else best) none

/-- A mid-sequence hit where the walk stopped: the prompt shares `hit` tokens with every path
below `child`, served by the deepest slot-bearing node there. -/
def partialHit (t : PrefixTree) (usable : ℕ → ℕ → Bool) (child : Option ℕ) (hit : ℕ)
    (best : Option (ℕ × ℕ)) : Option (Option (ℕ × ℕ)) :=
  match child with
  | none => some best
  | some child =>
    if 0 < hit && best.all fun b => b.2 < hit then
      (t.deepestSlotInSubtree child).map fun found =>
        match found with
        | some node => if usable node hit then some (node, hit) else best
        | none => best
    else some best

/-- The walk of `longestPrefix` from `cur`, which is `pos` tokens deep; `rest` is what the
prompt still asks for. -/
def longestPrefixFrom (t : PrefixTree) (partialOk : Bool) (usable : ℕ → ℕ → Bool) :
    ℕ → ℕ → ℕ → List Token → Option (ℕ × ℕ) → Option (Option (ℕ × ℕ))
  | 0, _, _, _, _ => none
  | fuel + 1, cur, pos, rest, best =>
    let depth := (t.nodes cur).depth
    let best := if 0 < depth && usable cur depth then some (cur, depth) else best
    match rest.head?.bind (t.nodes cur).children.get with
    | some child =>
      let matched := commonLen (t.nodes child).edge rest
      if matched = (t.nodes child).edge.length then
        t.longestPrefixFrom partialOk usable fuel child (pos + matched) (rest.drop matched) best
      else if partialOk then t.partialHit usable (some child) (pos + matched) best
      else some best
    | none =>
      if partialOk then t.partialHit usable (t.nodes cur).children.values.head? pos best
      else some best

/-- The longest prefix of `tokens` that has a usable node, as the node and the hit length.
`usable` is the caller's backend-side check. -/
def longestPrefix (t : PrefixTree) (ns : Namespace) (tokens : List Token) (partialOk : Bool)
    (usable : ℕ → ℕ → Bool) : Option (Option (ℕ × ℕ)) :=
  match t.root ns with
  | none => some none
  | some root => t.longestPrefixFrom partialOk usable (tokens.length + 1) root 0 tokens none

/-- Marks a node as just used. -/
def touch (t : PrefixTree) (node : ℕ) : PrefixTree :=
  let (t, now) := t.tick
  t.setNode node fun n => { n with lastUse := now }

/-! ### Insertion -/

/-- Splits the edge of `child` below `cur` at `matched`: a new node takes the shared head, the
child moves under it with the tail. -/
def split (t : PrefixTree) (cur child : ℕ) (first : Token) (matched : ℕ) : PrefixTree × ℕ :=
  let head := (t.nodes child).edge.take matched
  let tail := (t.nodes child).edge.drop matched
  let t := t.setNode child fun n => { n with edge := tail }
  let (t, mid) := t.alloc { edge := head, parent := cur, depth := (t.nodes cur).depth + matched }
  let t := t.setNode mid fun n => { n with children := n.children.insert (tail.headD 0) child }
  let t := t.setNode child fun n => { n with parent := mid }
  (t.setNode cur fun n => { n with children := n.children.insert first mid }, mid)

/-- A new leaf below `cur`. -/
def addLeaf (t : PrefixTree) (cur : ℕ) (first : Token) (edge : List Token) (depth : ℕ) :
    PrefixTree × ℕ :=
  let (t, new) := t.alloc { edge, parent := cur, depth }
  (t.setNode cur fun n => { n with children := n.children.insert first new }, new)

/-- The walk of `insert` from `cur` along `rest`; `depth` is the length of the whole path. -/
def insertFrom (depth : ℕ) : ℕ → PrefixTree → ℕ → List Token → Option (PrefixTree × ℕ)
  | _, t, cur, [] => some (t, cur)
  | 0, _, _, _ :: _ => none
  | fuel + 1, t, cur, first :: rest =>
    match (t.nodes cur).children.get first with
    | some child =>
      let matched := commonLen (t.nodes child).edge (first :: rest)
      if matched < (t.nodes child).edge.length then
        let (t, mid) := t.split cur child first matched
        insertFrom depth fuel t mid ((first :: rest).drop matched)
      else insertFrom depth fuel t child ((first :: rest).drop matched)
    | none => some (t.addLeaf cur first (first :: rest) depth)

/-- Attaches `slot` at `node` unless it is a root or owns a slot already; tells whether it was
attached. -/
def attach (t : PrefixTree) (node slot : ℕ) : PrefixTree × Bool :=
  if !t.isRoot node && (t.nodes node).slot.isNone then
    let (t, now) := t.tick
    (t.setNode node fun n => { n with slot := some slot, lastUse := now }, true)
  else (t, false)

/-- Inserts the path `tokens` and attaches `slot` at its end node. Returns the node and whether
the slot was attached; when it was not, the caller releases it. -/
def insert (t : PrefixTree) (ns : Namespace) (tokens : List Token) (slot : ℕ) :
    Option (PrefixTree × ℕ × Bool) :=
  let (t, root) := t.rootOrInsert ns
  (insertFrom tokens.length tokens.length t root tokens).map fun (t, node) =>
    let (t, attached) := t.attach node slot
    (t, node, attached)

/-! ### Payload and pins -/

/-- Attaches a host snapshot to a node whose slot was just evicted. -/
def attachSnapshot (t : PrefixTree) (node : ℕ) (snapshot : Snapshot) : PrefixTree :=
  let bytes := t.snapshotBytes + snapshot.size
  let bytes := match (t.nodes node).snapshot with
    | some old => bytes - old.size
    | none => bytes
  { t.setNode node fun n => { n with snapshot := some snapshot } with snapshotBytes := bytes }

def snapshot (t : PrefixTree) (node : ℕ) : Option Snapshot := (t.nodes node).snapshot

def slot (t : PrefixTree) (node : ℕ) : Option ℕ := (t.nodes node).slot

/-- Detaches the slot without dropping the node. -/
def detachSlot (t : PrefixTree) (node : ℕ) : PrefixTree :=
  t.setNode node fun n => { n with slot := none }

def depth (t : PrefixTree) (node : ℕ) : ℕ := (t.nodes node).depth

/-- The walk of `findExact` from `cur` along `rest`. -/
def findExactFrom (t : PrefixTree) : ℕ → ℕ → List Token → Option (Option ℕ)
  | _, cur, [] => some (if t.isRoot cur then none else some cur)
  | 0, _, _ :: _ => none
  | fuel + 1, cur, first :: rest =>
    match (t.nodes cur).children.get first with
    | none => some none
    | some child =>
      if (t.nodes child).edge.isPrefixOf (first :: rest) then
        t.findExactFrom fuel child ((first :: rest).drop (t.nodes child).edge.length)
      else some none

/-- The node at exactly `tokens`. -/
def findExact (t : PrefixTree) (ns : Namespace) (tokens : List Token) : Option (Option ℕ) :=
  match t.root ns with
  | none => some none
  | some root => t.findExactFrom tokens.length root tokens

/-- Pins `node`, so that eviction never releases it. -/
def pinNode (t : PrefixTree) (node : ℕ) : PrefixTree × PinId :=
  let t := t.setNode node fun n => { n with pins := n.pins + 1 }
  let (t, now) := t.tick
  let t := t.setNode node fun n => { n with lastUse := now }
  ({ t with nextPin := t.nextPin + 1, pins := t.pins.insert t.nextPin node }, t.nextPin)

/-- Releases one pin; false when the id is unknown or released. -/
def unpin (t : PrefixTree) (id : PinId) : PrefixTree × Bool :=
  match t.pins.get id with
  | none => (t, false)
  | some node =>
    ({ t with pins := t.pins.erase id }.setNode node fun n => { n with pins := n.pins - 1 }, true)

/-! ### Eviction -/

/-- The least recently used unpinned node that is `eligible`, the lowest index of equals. -/
def lru (t : PrefixTree) (eligible : Node → Bool) : Option ℕ :=
  ((List.range' 1 (t.len - 1)).filter fun i =>
    (t.nodes i).pins == 0 && eligible (t.nodes i)).argmin fun i => (t.nodes i).lastUse

/-- The LRU unpinned node owning a slot. -/
def evictionCandidate (t : PrefixTree) : Option ℕ := t.lru fun node => node.slot.isSome

/-- The LRU swapped-only node. -/
def snapshotEvictionCandidate (t : PrefixTree) : Option ℕ :=
  t.lru fun node => node.slot.isNone && node.snapshot.isSome

/-- Takes a leaf out of its parent and recycles its index. -/
def freeLeaf (t : PrefixTree) (child : ℕ) : PrefixTree :=
  let current := t.nodes child
  let t := t.setNode current.parent fun n =>
    { n with children := n.children.erase (current.edge.headD 0) }
  let t := t.setNode child fun _ => {}
  { t with free := child :: t.free }

/-- Prunes `child` and its ancestors as long as they hold nothing. -/
def prune : ℕ → PrefixTree → ℕ → Option PrefixTree
  | 0, _, _ => none
  | fuel + 1, t, child =>
    let current := t.nodes child
    if t.isRoot child then some t
    else if !current.children.entries.isEmpty || current.slot.isSome || current.snapshot.isSome
        || 0 < current.pins then some t
    else prune fuel (t.freeLeaf child) current.parent

/-- Drops a node's payload and prunes it and its now-empty ancestors up to the root. -/
def remove (t : PrefixTree) (node : ℕ) : Option PrefixTree :=
  let bytes := match (t.nodes node).snapshot with
    | some snap => t.snapshotBytes - snap.size
    | none => t.snapshotBytes
  let t := { t.setNode node fun n => { n with snapshot := none, slot := none } with
    snapshotBytes := bytes }
  prune (t.depth node + 1) t node

/-- All resident slots. -/
def residentSlots (t : PrefixTree) : List ℕ :=
  (List.range t.len).filterMap fun i => (t.nodes i).slot

/-- Cells held by dormant slots, counted once per node. -/
def residentCells (t : PrefixTree) : ℕ :=
  (((List.range t.len).filter fun i => (t.nodes i).slot.isSome).map fun i => (t.nodes i).depth).sum

/-- Drops every node and pin; returns the slots the caller must release. -/
def clear (t : PrefixTree) : PrefixTree × List ℕ :=
  ({ t with nodes := fun _ => {}, len := 1, free := [], pins := ∅, roots := ∅, snapshotBytes := 0 },
    t.residentSlots)

/-- Drops the nodes `dropped` of one namespace, their snapshots and their pins. -/
def dropNodes (t : PrefixTree) (dropped : List ℕ) : PrefixTree :=
  let bytes := dropped.foldl (fun bytes i =>
    bytes - ((t.nodes i).snapshot.elim 0 Snapshot.size)) t.snapshotBytes
  let unpinned := fun i => if i ∈ dropped then { t.nodes i with pins := 0 } else t.nodes i
  { t with
    nodes := fun i => if i ∈ dropped then {} else t.nodes i
    pins := t.pins.filter fun _ node => (unpinned node).pins != 0
    free := dropped.reverse ++ t.free
    snapshotBytes := bytes }

/-- Drops every node of namespace `ns` and its pins; returns the slots the caller must
release. -/
def dropNamespace (t : PrefixTree) (ns : Namespace) : Option (PrefixTree × List ℕ) :=
  match t.root ns with
  | none => some (t, [])
  | some root =>
    (t.visit t.len (t.nodes root).children.values.reverse).map fun dropped =>
      let slots := dropped.filterMap fun i => (t.nodes i).slot
      let t := t.dropNodes dropped
      let t := t.setNode root fun n => { n with children := ∅ }
      if root = 0 then (t, slots)
      else
        let t := { t with roots := t.roots.erase ns }.setNode root fun _ => {}
        ({ t with free := root :: t.free }, slots)

/-- Reachable nodes, the roots excluded. -/
def nodeCount (t : PrefixTree) : ℕ := t.len - 1 - t.roots.size - t.free.length

def residentSlotCount (t : PrefixTree) : ℕ := t.residentSlots.length

end PrefixTree

end Retrograd.Infer
