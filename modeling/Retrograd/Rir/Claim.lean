import Mathlib.Data.List.Sort
import Mathlib.Data.String.Basic
import Retrograd.Logic.Odometer

/-!
# Shape claims

The claim a variant publishes decides, per node, whether a specialization is a candidate: a
conjunction of rules that bound a **saturated product** of named extents. Whether a list of claims
leaves nothing of a claim uncovered is decided over boxes, one coordinate for each group of axes.
-/

namespace Retrograd.Rir

/-! ### Rules -/

/-- `product(extent(axes)) ∈ [min, max]`, inclusive. -/
structure ShapeRule where
  axes : List String
  min : UInt32
  max : UInt32
deriving DecidableEq, Repr

/-- `std::ops::Bound`. -/
inductive Bound where
  | included (bound : UInt32)
  | excluded (bound : UInt32)
  | unbounded
deriving DecidableEq, Repr

/-- `u32::MAX`. -/
def u32Max : UInt32 := 4294967295

/-- The empty interval. -/
def emptyInterval : UInt32 × UInt32 := (1, 0)

/-- The lowest extent of a range, none where its excluded end leaves nothing. -/
def lowest : Bound → Option UInt32
  | .included lo => some lo
  | .excluded lo => if lo = u32Max then none else some (lo + 1)
  | .unbounded => some 1

/-- The highest extent of a range, none where its excluded end leaves nothing. -/
def highest : Bound → Option UInt32
  | .included hi => some hi
  | .excluded hi => if hi = 0 then none else some (hi - 1)
  | .unbounded => some u32Max

/-- `[min, max]` from a range, with the open ends of an extent. -/
def interval (start stop : Bound) : UInt32 × UInt32 :=
  match lowest start, highest stop with
  | some min, some max => (min, max)
  | _, _ => emptyInterval

/-- The rule over `axes` whose interval is a range. -/
def ShapeRule.new (axes : List String) (start stop : Bound) : ShapeRule :=
  let (min, max) := interval start stop
  ⟨axes, min, max⟩

/-- The extents a shape answers, none for an axis it does not know. -/
abbrev Shape := String → Option UInt64

/-- The largest value a product takes. -/
def cap : ℕ := 4294967295

/-- `u64::saturating_mul`. -/
def saturatingMul (a b : ℕ) : ℕ := Nat.min (a * b) (2 ^ 64 - 1)

/-- A product takes one more extent, which must be there and be positive. -/
def timesExtent (shape : Shape) (product : ℕ) (axis : String) : Option ℕ := do
  let factor ← (shape axis).filter fun e => decide (0 < e)
  some (Nat.min (saturatingMul product factor.toNat) cap)

/-- The dispatcher's product of the extents of some axes: none when an axis does not resolve or an
extent is zero. -/
def productOf (shape : Shape) (axes : List String) : Option ℕ := axes.foldlM (timesExtent shape) 1

def ShapeRule.product (rule : ShapeRule) (shape : Shape) : Option ℕ := productOf shape rule.axes

def ShapeRule.holds (rule : ShapeRule) (shape : Shape) : Bool :=
  (rule.product shape).any fun p => decide (rule.min.toNat ≤ p ∧ p ≤ rule.max.toNat)

/-! ### Claims -/

/-- A conjunction of rules. -/
structure Claim where
  rules : List ShapeRule
deriving DecidableEq, Repr

/-- Every shape. -/
def Claim.any : Claim := ⟨[]⟩

/-- Adds a bound on the product of some extents. -/
def Claim.product (claim : Claim) (axes : List String) (start stop : Bound) : Claim :=
  ⟨claim.rules ++ [.new axes start stop]⟩

/-- Whether a shape is claimed. -/
def Claim.holds (claim : Claim) (shape : Shape) : Bool := claim.rules.all fun rule => rule.holds shape

/-- A rule's axes as a set: the same axes in another order are the same product. -/
def groupOf (rule : ShapeRule) : List String := rule.axes.mergeSort fun a b => decide (a ≤ b)

/-! ### Boxes -/

/-- A claim as a box over the products of some groups, each side an inclusive interval of the values
a saturated product takes. -/
structure Cell where
  sides : List (ℕ × ℕ)

/-- One rule cuts the side of its group. None when the rule holds for no shape. -/
def Cell.cutBy (groups : List (List String)) (sides : List (ℕ × ℕ)) (rule : ShapeRule) :
    Option (List (ℕ × ℕ)) :=
  let (lo, hi) := (rule.min.toNat, rule.max.toNat)
  let group := groupOf rule
  if group.isEmpty then if lo ≤ 1 ∧ 1 ≤ hi then some sides else none
  else
    match groups.findIdx? (· == group) with
    | none => none
    | some at_ => some (sides.modify at_ fun side => (Nat.max side.1 lo, Nat.min side.2 hi))

/-- None when the claim holds for no shape. -/
def Cell.of (claim : Claim) (groups : List (List String)) : Option Cell := do
  let sides ← claim.rules.foldlM (Cell.cutBy groups) (List.replicate groups.length (1, cap))
  if sides.all fun side => decide (side.1 ≤ side.2) then some ⟨sides⟩ else none

def Cell.contains (cell : Cell) (point : List ℕ) : Bool :=
  (cell.sides.zip point).all fun entry => decide (entry.1.1 ≤ entry.2 ∧ entry.2 ≤ entry.1.2)

/-- The bounds of covers that fall inside a side, and its own start. -/
def startsIn (lo hi : ℕ) (bounds : List (ℕ × ℕ)) : List ℕ :=
  let inside := bounds.flatMap fun bound =>
    [bound.1, bound.2 + 1].filter fun s => decide (lo < s ∧ s ≤ hi)
  ((lo :: inside).mergeSort fun a b => decide (a ≤ b)).dedup

/-- Each side cut at every bound a cover places inside it. -/
def Cell.cuts (cell : Cell) (covers : List Cell) : List (List ℕ) :=
  cell.sides.zipIdx.map fun (side, d) =>
    startsIn side.1 side.2 (covers.map fun cover => cover.sides.getD d (0, 0))

/-- The lowest corner of the sub-box at an index. -/
def cornerAt (cuts : List (List ℕ)) (index : List ℕ) : List ℕ :=
  index.zipWith (fun i starts => starts.getD i 0) cuts

/-- Looks for a sub-box no cover contains: the indices it looked at, and whether there is none. -/
def Cell.searchCovered (cell : Cell) (covers : List Cell) : List (List ℕ) × Bool :=
  let cuts := cell.cuts covers
  Logic.walk (cuts.map List.length)
    (fun index => covers.any fun cover => cover.contains (cornerAt cuts index))
    (List.replicate cuts.length 0)

/-- Whether the union of some boxes contains this one. -/
def Cell.coveredBy (cell : Cell) (covers : List Cell) : Bool := (cell.searchCovered covers).2

/-! ### Coverage -/

/-- One rule's group joins the groups, unless it shares an axis with another one. -/
def joinGroup (groups : List (List String)) (rule : ShapeRule) : Option (List (List String)) :=
  let group := groupOf rule
  if group.isEmpty || groups.contains group then some groups
  else if groups.any fun g => g.any fun axis => group.contains axis then none
  else some (groups ++ [group])

/-- The axis groups of some claims, none where two of them overlap. -/
def groupsOf (claims : List Claim) : Option (List (List String)) :=
  (claims.flatMap Claim.rules).foldlM joinGroup []

/-- Whether every shape the claim holds for is one of the others'. -/
def Claim.coveredBy (claim : Claim) (others : List Claim) : Option Bool := do
  let groups ← groupsOf (claim :: others)
  match Cell.of claim groups with
  | none => some true
  | some target => some (target.coveredBy (others.filterMap fun other => Cell.of other groups))

end Retrograd.Rir
