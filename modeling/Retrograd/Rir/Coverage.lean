import Mathlib.Algebra.Order.BigOperators.Group.List
import Mathlib.Data.List.Pairwise
import Retrograd.Rir.Boxes

/-!
# Coverage is exact

Where no two axis groups overlap, the products of the groups vary independently: every shape is a
**point** with a coordinate for each group, every point is some shape's, and a claim holds for a
shape when its box contains the point. So a search over boxes decides whether a list of claims
covers a claim.
-/

namespace Retrograd.Rir

open Logic List Option

/-! ### Ranges -/

/-- A range starts at or below a number. -/
def Bound.Starts (start : Bound) (p : ℕ) : Prop :=
  match start with
  | .included lo => lo.toNat ≤ p
  | .excluded lo => lo.toNat < p
  | .unbounded => True

/-- A range ends at or above a number. -/
def Bound.Ends (stop : Bound) (p : ℕ) : Prop :=
  match stop with
  | .included hi => p ≤ hi.toNat
  | .excluded hi => p < hi.toNat
  | .unbounded => True

theorem lowest_spec (start : Bound) {p : ℕ} (hpos : 1 ≤ p) (hcap : p ≤ cap) :
    match lowest start with
    | none => ¬ start.Starts p
    | some lo => lo.toNat ≤ p ↔ start.Starts p := by
  unfold lowest Bound.Starts
  rcases start with lo | lo | _
  · exact Iff.rfl
  · dsimp only
    split_ifs with hlo
    · rw [hlo]
      exact not_lt.mpr hcap
    · have hlt : lo.toNat + 1 < 2 ^ 32 := by
        have hsize := lo.toNat_lt
        have hne : lo.toNat ≠ 4294967295 := fun heq => hlo (UInt32.toNat.inj heq)
        omega
      have hnext : (lo + 1).toNat = lo.toNat + 1 := by
        rw [UInt32.toNat_add]
        exact Nat.mod_eq_of_lt hlt
      dsimp only
      rw [hnext]
      exact Nat.succ_le_iff
  · exact iff_true_intro hpos

theorem highest_spec (stop : Bound) {p : ℕ} (hcap : p ≤ cap) :
    match highest stop with
    | none => ¬ stop.Ends p
    | some hi => p ≤ hi.toNat ↔ stop.Ends p := by
  unfold highest Bound.Ends
  rcases stop with hi | hi | _
  · exact Iff.rfl
  · dsimp only
    split_ifs with hhi
    · rw [hhi]
      exact Nat.not_lt_zero p
    · have hpos : 1 ≤ hi.toNat := by
        have hne : hi.toNat ≠ 0 := fun heq => hhi (UInt32.toNat.inj heq)
        omega
      have hprev : (hi - 1).toNat = hi.toNat - 1 :=
        UInt32.toNat_sub_of_le _ _ (UInt32.le_iff_toNat_le.mpr hpos)
      dsimp only
      rw [hprev]
      omega
  · exact iff_true_intro hcap

/-- An interval holds the values of a product that its range holds. -/
theorem interval_iff {start stop : Bound} {p : ℕ} (hpos : 1 ≤ p) (hcap : p ≤ cap) :
    ((interval start stop).1.toNat ≤ p ∧ p ≤ (interval start stop).2.toNat) ↔
      start.Starts p ∧ stop.Ends p := by
  -- an excluded end with nothing past it leaves the empty interval
  have hempty : ¬ (emptyInterval.1.toNat ≤ p ∧ p ≤ emptyInterval.2.toNat) := fun h =>
    absurd (hpos.trans h.2) (by decide)
  have hlowest := lowest_spec start hpos hcap
  have hhighest := highest_spec stop hcap
  unfold interval
  cases hlo : lowest start with
  | none =>
    rw [hlo] at hlowest
    exact iff_of_false hempty fun h => hlowest h.1
  | some lo =>
    rw [hlo] at hlowest
    cases hhi : highest stop with
    | none =>
      rw [hhi] at hhighest
      exact iff_of_false hempty fun h => hhighest h.2
    | some hi =>
      rw [hhi] at hhighest
      exact and_congr hlowest hhighest

/-! ### Products -/

/-- The shape gives each of the axes a positive extent. -/
def Resolves (shape : Shape) (axes : List String) : Prop :=
  ∀ axis ∈ axes, ∃ extent, shape axis = some extent ∧ 0 < extent

/-- The extent of an axis. -/
def extentOf (shape : Shape) (axis : String) : ℕ := ((shape axis).map UInt64.toNat).getD 0

/-- The product of some extents, as it is compared. -/
def saturated (shape : Shape) (axes : List String) : ℕ :=
  min (axes.map (extentOf shape)).prod cap

variable {shape : Shape} {axes : List String}

variable {axis : String}

theorem Resolves.extent_pos (h : Resolves shape axes) (haxis : axis ∈ axes) :
    0 < extentOf shape axis := by
  obtain ⟨extent, hextent, hpos⟩ := h axis haxis
  rw [extentOf, hextent]
  exact hpos

theorem Resolves.prod_pos (h : Resolves shape axes) : 0 < (axes.map (extentOf shape)).prod := by
  induction axes with
  | nil => exact Nat.one_pos
  | cons axis axes ih =>
    rw [map_cons, prod_cons]
    exact Nat.mul_pos (h.extent_pos (.head _)) (ih fun axis haxis => h axis (.tail _ haxis))

/-- Saturating at every factor is saturating once. -/
theorem timesExtent_min {a : ℕ} (h : Resolves shape [axis]) :
    timesExtent shape (min a cap) axis = some (min (a * extentOf shape axis) cap) := by
  obtain ⟨extent, hextent, hpos⟩ := h axis (.head _)
  have hfactor : 0 < extent.toNat := hpos
  have hcap : cap ≤ 2 ^ 64 - 1 := by decide
  rw [timesExtent, extentOf, hextent, filter_some, if_pos (decide_eq_true hpos)]
  refine congrArg some ?_
  show Nat.min (Nat.min (min a cap * extent.toNat) (2 ^ 64 - 1)) cap = min (a * extent.toNat) cap
  rcases Nat.le_total a cap with hle | hge
  · rw [min_eq_left hle]
    exact (min_assoc _ _ _).trans (by rw [min_eq_right hcap])
  · have hbig := Nat.le_mul_of_pos_right cap hfactor
    have hbigger := Nat.le_mul_of_pos_right a hfactor
    rw [min_eq_right hge, min_eq_right (hge.trans hbigger)]
    exact min_eq_right (le_min hbig hcap)

theorem productOf_eq (h : Resolves shape axes) :
    productOf shape axes = some (saturated shape axes) := by
  have hloop (a : ℕ) : axes.foldlM (timesExtent shape) (min a cap) =
      some (min (a * (axes.map (extentOf shape)).prod) cap) := by
    induction axes generalizing a with
    | nil => simp
    | cons axis axes ih =>
      have hfirst : Resolves shape [axis] := fun b hb => h b (mem_singleton.mp hb ▸ .head _)
      rw [foldlM_cons, timesExtent_min hfirst, bind_eq_bind, bind_some,
        ih (fun b hb => h b (.tail _ hb)), map_cons, prod_cons, Nat.mul_assoc]
  have hone : min 1 cap = 1 := by decide
  have hall := hloop 1
  rw [hone, Nat.one_mul] at hall
  exact hall

theorem Resolves.saturated_mem (h : Resolves shape axes) :
    1 ≤ saturated shape axes ∧ saturated shape axes ≤ cap :=
  ⟨le_min h.prod_pos (by decide), min_le_right _ _⟩

theorem saturated_perm {other : List String} (h : axes.Perm other) :
    saturated shape axes = saturated shape other := by
  rw [saturated, saturated, (h.map _).prod_eq]

/-- A product is there only where its axes resolve. -/
theorem Resolves.of_foldlM {a p : ℕ} (h : axes.foldlM (timesExtent shape) a = some p) :
    Resolves shape axes := by
  induction axes generalizing a with
  | nil => exact fun _ haxis => absurd haxis not_mem_nil
  | cons axis axes ih =>
    rw [foldlM_cons] at h
    obtain ⟨product, hproduct, h⟩ := bind_eq_some_iff.mp h
    obtain ⟨factor, hfactor, -⟩ := bind_eq_some_iff.mp hproduct
    obtain ⟨hextent, hpos⟩ := filter_eq_some_iff.mp hfactor
    exact forall_mem_cons.mpr ⟨⟨factor, hextent, of_decide_eq_true hpos⟩, ih h⟩

/-- The product of some axes is in a range. -/
def Within (shape : Shape) (range : List String × Bound × Bound) : Prop :=
  Resolves shape range.1 ∧ range.2.1.Starts (saturated shape range.1) ∧
    range.2.2.Ends (saturated shape range.1)

theorem ShapeRule.new_holds_iff (range : List String × Bound × Bound) :
    (ShapeRule.new range.1 range.2.1 range.2.2).holds shape = true ↔ Within shape range := by
  by_cases hshape : Resolves shape range.1
  · obtain ⟨hpos, hcap⟩ := hshape.saturated_mem
    rw [Within, ← interval_iff hpos hcap, and_iff_right hshape, ShapeRule.holds]
    show (productOf shape range.1).any _ = true ↔ _
    rw [productOf_eq hshape, any_some, decide_eq_true_eq]
    rfl
  · refine iff_of_false (fun h => hshape ?_) fun h => hshape h.1
    obtain ⟨p, hp, -⟩ := (any_eq_true _ _).mp h
    exact .of_foldlM hp

/-- **A claim built from ranges holds where its products lie in them**, whatever ends the ranges
leave open or exclude: every axis resolves, and every product, saturated once, is in its range. -/
theorem claim_of_ranges_holds_iff (ranges : List (List String × Bound × Bound)) :
    (ranges.foldl (fun claim range => claim.product range.1 range.2.1 range.2.2)
      Claim.any).holds shape = true ↔ ∀ range ∈ ranges, Within shape range := by
  have hbuilt (claim : Claim) : (ranges.foldl (fun claim range =>
      claim.product range.1 range.2.1 range.2.2) claim).holds shape = true ↔
      claim.holds shape = true ∧ ∀ range ∈ ranges, Within shape range := by
    induction ranges generalizing claim with
    | nil => simp
    | cons range ranges ih =>
      rw [foldl_cons, ih, forall_mem_cons, ← and_assoc, ← ShapeRule.new_holds_iff]
      simp [Claim.holds, Claim.product]
  exact (hbuilt .any).trans (and_iff_right rfl)

/-! ### Groups -/

theorem groupOf_perm (rule : ShapeRule) : (groupOf rule).Perm rule.axes := mergeSort_perm _ _

theorem mem_groupOf {rule : ShapeRule} : axis ∈ groupOf rule ↔ axis ∈ rule.axes :=
  (groupOf_perm rule).mem_iff

theorem groupOf_eq_nil {rule : ShapeRule} : groupOf rule = [] ↔ rule.axes = [] := by
  constructor
  · intro h
    exact perm_nil.mp (h ▸ (groupOf_perm rule).symm)
  · intro h
    exact perm_nil.mp (h ▸ groupOf_perm rule)

/-- Sorted, the same axes in another order are the same group. -/
theorem groupOf_eq_iff {rule other : ShapeRule} (h : rule.axes.Nodup) (hother : other.axes.Nodup) :
    groupOf rule = groupOf other ↔ ∀ axis, axis ∈ rule.axes ↔ axis ∈ other.axes := by
  constructor
  · intro heq axis
    rw [← mem_groupOf, heq, mem_groupOf]
  · intro hmem
    have hperm : rule.axes.Perm other.axes := (perm_ext_iff_of_nodup h hother).mpr hmem
    have hsorted (axes : List String) :
        (axes.mergeSort fun a b => decide (a ≤ b)).Pairwise fun a b => a ≤ b := by
      refine (pairwise_mergeSort (fun a b c hab hbc => ?_) (fun a b => ?_) axes).imp
        fun hab => of_decide_eq_true hab
      · exact decide_eq_true ((of_decide_eq_true hab).trans (of_decide_eq_true hbc))
      · simpa using le_total a b
    refine Perm.eq_of_pairwise (fun a b _ _ hab hba => le_antisymm hab hba) (hsorted _)
      (hsorted _) ?_
    exact ((groupOf_perm rule).trans hperm).trans (groupOf_perm other).symm

/-- What the groups of some rules are: every group is one of them, and they are disjoint. -/
structure Gathered (rules : List ShapeRule) (groups : List (List String)) : Prop where
  mem : ∀ rule ∈ rules, rule.axes ≠ [] → groupOf rule ∈ groups
  of_rule : ∀ group ∈ groups, ∃ rule ∈ rules, rule.axes ≠ [] ∧ groupOf rule = group
  disjoint : groups.Pairwise List.Disjoint

/-- Two rules of different groups share an axis. -/
def Overlap (rules : List ShapeRule) : Prop :=
  ∃ rule ∈ rules, ∃ other ∈ rules, groupOf rule ≠ groupOf other ∧
    ∃ axis, axis ∈ rule.axes ∧ axis ∈ other.axes

variable {rules : List ShapeRule}

theorem Gathered.not_overlap {groups : List (List String)} (h : Gathered rules groups) :
    ¬ Overlap rules := by
  rintro ⟨rule, hrule, other, hother, hne, axis, haxis, hshared⟩
  have hmem := h.mem rule hrule (ne_nil_of_mem haxis)
  have hmem' := h.mem other hother (ne_nil_of_mem hshared)
  have : Std.Symm (List.Disjoint : List String → List String → Prop) := ⟨fun _ _ h => h.symm⟩
  exact h.disjoint.forall hmem hmem' hne (mem_groupOf.mpr haxis)
    (mem_groupOf.mpr hshared)

theorem Gathered.join {groups : List (List String)} (h : Gathered rules groups) (rule : ShapeRule) :
    match joinGroup groups rule with
    | none => Overlap (rules ++ [rule])
    | some groups' => Gathered (rules ++ [rule]) groups' := by
  have hold : ∀ other ∈ rules, other ∈ rules ++ [rule] := fun _ h => mem_append_left _ h
  have hrule : rule ∈ rules ++ [rule] := mem_append_right _ (mem_singleton_self _)
  have hof : ∀ group ∈ groups, ∃ other ∈ rules ++ [rule], other.axes ≠ [] ∧ groupOf other = group :=
    fun group hgroup => (h.of_rule group hgroup).imp fun other hother =>
      ⟨hold other hother.1, hother.2⟩
  unfold joinGroup
  dsimp only
  by_cases hknown : ((groupOf rule).isEmpty || groups.contains (groupOf rule)) = true
  · rw [if_pos hknown]
    refine ⟨fun other hother hne => ?_, hof, h.disjoint⟩
    rcases mem_append.mp hother with hother | hother
    · exact h.mem other hother hne
    · obtain rfl := mem_singleton.mp hother
      have hgroup : (groupOf other).isEmpty = false := by
        rw [isEmpty_eq_false_iff]
        exact fun hnil => hne (groupOf_eq_nil.mp hnil)
      rw [hgroup, Bool.false_or, contains_iff_mem] at hknown
      exact hknown
  rw [if_neg hknown]
  rw [Bool.or_eq_true, not_or, List.isEmpty_iff, contains_iff_mem] at hknown
  obtain ⟨hne, hnew⟩ := hknown
  by_cases hshared : (groups.any fun g => g.any fun axis => (groupOf rule).contains axis) = true
  · rw [if_pos hshared]
    obtain ⟨group, hgroup, haxis⟩ := List.any_eq_true.mp hshared
    obtain ⟨axis, haxis, hin⟩ := List.any_eq_true.mp haxis
    obtain ⟨other, hother, -, rfl⟩ := h.of_rule group hgroup
    exact ⟨other, hold _ hother, rule, hrule, fun heq => hnew (heq ▸ hgroup), axis,
      mem_groupOf.mp haxis, mem_groupOf.mp (contains_iff_mem.mp hin)⟩
  · rw [if_neg hshared]
    refine ⟨fun other hother hne => ?_, fun group hgroup => ?_, ?_⟩
    · rcases mem_append.mp hother with hother | hother
      · exact mem_append_left _ (h.mem other hother hne)
      · exact mem_append_right _ (mem_singleton.mp hother ▸ mem_singleton_self _)
    · rcases mem_append.mp hgroup with hgroup | hgroup
      · exact hof group hgroup
      · exact ⟨rule, hrule, fun hnil => hne (groupOf_eq_nil.mpr hnil),
          (mem_singleton.mp hgroup).symm⟩
    · refine pairwise_append.mpr ⟨h.disjoint, pairwise_singleton _ _, ?_⟩
      intro group hgroup group' hgroup' axis haxis hin
      rw [mem_singleton.mp hgroup'] at hin
      exact hshared (List.any_eq_true.mpr ⟨group, hgroup,
        List.any_eq_true.mpr ⟨axis, haxis, contains_iff_mem.mpr hin⟩⟩)

theorem Gathered.foldlM {groups : List (List String)} (h : Gathered rules groups)
    (more : List ShapeRule) : match more.foldlM joinGroup groups with
    | none => Overlap (rules ++ more)
    | some groups' => Gathered (rules ++ more) groups' := by
  induction more generalizing rules groups with
  | nil => simpa using h
  | cons rule more ih =>
    have hjoin := h.join rule
    rw [foldlM_cons, bind_eq_bind]
    cases hgroups : joinGroup groups rule with
    | none =>
      rw [hgroups] at hjoin
      obtain ⟨a, ha, b, hb, hab⟩ := hjoin
      have hmono : ∀ r ∈ rules ++ [rule], r ∈ rules ++ rule :: more := by
        intro r hr
        rw [append_cons]
        exact mem_append_left _ hr
      exact ⟨a, hmono a ha, b, hmono b hb, hab⟩
    | some groups' =>
      rw [hgroups] at hjoin
      rw [append_cons]
      exact ih hjoin

/-- **The groups are found exactly when no two of them overlap.** -/
theorem groupsOf_spec (claims : List Claim) :
    match groupsOf claims with
    | none => Overlap (claims.flatMap Claim.rules)
    | some groups => Gathered (claims.flatMap Claim.rules) groups := by
  have hempty : Gathered [] [] :=
    ⟨fun _ h => absurd h not_mem_nil, fun _ h => absurd h not_mem_nil, .nil⟩
  exact hempty.foldlM _

/-! ### Claims as boxes -/

/-- The coordinate of a group at a point. -/
def coordinate (groups : List (List String)) (point : List ℕ) (group : List String) : ℕ :=
  point.getD (groups.idxOf group) 0

/-- A point a rule admits. -/
def Admits (groups : List (List String)) (point : List ℕ) (rule : ShapeRule) : Prop :=
  let value := if rule.axes = [] then 1 else coordinate groups point (groupOf rule)
  rule.min.toNat ≤ value ∧ value ≤ rule.max.toNat

/-- The point of a shape. -/
def pointOf (shape : Shape) (groups : List (List String)) : List ℕ := groups.map (saturated shape)

variable {rules : List ShapeRule} {groups : List (List String)} {point : List ℕ} {rule : ShapeRule}

theorem coordinate_pointOf {group : List String} (h : group ∈ groups) :
    coordinate groups (pointOf shape groups) group = saturated shape group := by
  have hlt := idxOf_lt_length_iff.mpr h
  rw [coordinate, pointOf, getD_eq_getElem _ _ (by simpa using hlt), getElem_map,
    getElem_idxOf]

/-- A rule holds for a shape when it admits the shape's point. -/
theorem ShapeRule.holds_iff (hgroup : rule.axes ≠ [] → groupOf rule ∈ groups)
    (hshape : Resolves shape rule.axes) :
    rule.holds shape = true ↔ Admits groups (pointOf shape groups) rule := by
  have hvalue : saturated shape rule.axes =
      if rule.axes = [] then 1 else coordinate groups (pointOf shape groups) (groupOf rule) := by
    split_ifs with hnil
    · rw [hnil]
      rfl
    · rw [coordinate_pointOf (hgroup hnil), saturated_perm (groupOf_perm rule)]
  rw [ShapeRule.holds, ShapeRule.product, productOf_eq hshape, any_some, decide_eq_true_eq,
    hvalue]
  rfl

variable {sides : List (ℕ × ℕ)}

theorem inside_modify {i lo hi : ℕ} :
    Inside (sides.modify i fun side => (Nat.max side.1 lo, Nat.min side.2 hi)) point ↔
      Inside sides point ∧
        ∀ side p, sides[i]? = some side → point[i]? = some p → lo ≤ p ∧ p ≤ hi := by
  have hget (j : ℕ) : (sides.modify i fun side => (Nat.max side.1 lo, Nat.min side.2 hi))[j]? =
      sides[j]?.map fun side => if i = j then (Nat.max side.1 lo, Nat.min side.2 hi) else side :=
    getElem?_modify ..
  constructor
  · intro h
    refine ⟨fun j side p hside hp => ?_, fun side p hside hp => ?_⟩
    · have hin := h j _ p (by rw [hget, hside, map_some]) hp
      split_ifs at hin
      · exact ⟨(le_max_left _ _).trans hin.1, hin.2.trans (min_le_left _ _)⟩
      · exact hin
    · have hin := h i _ p (by rw [hget, hside, map_some, if_pos rfl]) hp
      exact ⟨(le_max_right _ _).trans hin.1, hin.2.trans (min_le_right _ _)⟩
  · rintro ⟨h, hcut⟩ j side p hside hp
    rw [hget] at hside
    obtain ⟨old, hold, rfl⟩ := map_eq_some_iff.mp hside
    have hin := h j old p hold hp
    split_ifs with hij
    · subst hij
      have hcut := hcut old p hold hp
      exact ⟨max_le hin.1 hcut.1, le_min hin.2 hcut.2⟩
    · exact hin

/-- One rule cuts away the points it does not admit. -/
theorem Cell.cutBy_spec (hgroup : rule.axes ≠ [] → groupOf rule ∈ groups)
    (hsides : sides.length = groups.length) (hpoint : point.length = groups.length) :
    match Cell.cutBy groups sides rule with
    | none => ¬ Admits groups point rule
    | some sides' => sides'.length = groups.length ∧
        (Inside sides' point ↔ Inside sides point ∧ Admits groups point rule) := by
  unfold Cell.cutBy Admits
  dsimp only
  by_cases hnil : rule.axes = []
  · have hempty : (groupOf rule).isEmpty = true := List.isEmpty_iff.mpr (groupOf_eq_nil.mpr hnil)
    rw [if_pos hempty, if_pos hnil]
    by_cases hone : rule.min.toNat ≤ 1 ∧ 1 ≤ rule.max.toNat
    · rw [if_pos hone]
      exact ⟨hsides, (and_iff_left hone).symm⟩
    · rw [if_neg hone]
      exact hone
  · have hfull : ¬ (groupOf rule).isEmpty = true :=
      fun h => hnil (groupOf_eq_nil.mp (List.isEmpty_iff.mp h))
    have hmem := hgroup hnil
    have hfind : groups.findIdx? (· == groupOf rule) = some (groups.idxOf (groupOf rule)) :=
      findIdx?_eq_some_of_exists ⟨groupOf rule, hmem, beq_self_eq_true _⟩
    have hat : groups.idxOf (groupOf rule) < groups.length := idxOf_lt_length_iff.mpr hmem
    rw [if_neg hfull, if_neg hnil, hfind, coordinate, getD_eq_getElem _ _ (hpoint ▸ hat)]
    refine ⟨by rw [length_modify, hsides], inside_modify.trans (and_congr_right fun _ => ?_)⟩
    constructor
    · intro h
      exact h _ _ (getElem?_eq_getElem (hsides ▸ hat)) (getElem?_eq_getElem _)
    · intro h side p _ hp
      obtain ⟨_, rfl⟩ := List.getElem?_eq_some_iff.mp hp
      exact h

theorem Cell.foldlM_cutBy (hgroup : ∀ rule ∈ rules, rule.axes ≠ [] → groupOf rule ∈ groups)
    (hsides : sides.length = groups.length) (hpoint : point.length = groups.length) :
    match rules.foldlM (Cell.cutBy groups) sides with
    | none => ¬ ∀ rule ∈ rules, Admits groups point rule
    | some sides' => sides'.length = groups.length ∧
        (Inside sides' point ↔ Inside sides point ∧ ∀ rule ∈ rules, Admits groups point rule) := by
  induction rules generalizing sides with
  | nil => exact ⟨hsides, by simp⟩
  | cons rule rules ih =>
    have hcut := Cell.cutBy_spec (hgroup rule (.head _)) hsides hpoint
    rw [foldlM_cons, bind_eq_bind]
    cases hnext : Cell.cutBy groups sides rule with
    | none =>
      rw [hnext] at hcut
      exact fun h => hcut (h rule (.head _))
    | some next =>
      rw [hnext] at hcut
      have hrest := ih (fun other hother => hgroup other (.tail _ hother)) hcut.1
      rw [bind_some]
      cases hlast : rules.foldlM (Cell.cutBy groups) next with
      | none =>
        rw [hlast] at hrest
        exact fun h => hrest fun other hother => h other (.tail _ hother)
      | some last =>
        rw [hlast] at hrest
        refine ⟨hrest.1, hrest.2.trans ?_⟩
        rw [hcut.2, forall_mem_cons, and_assoc]

/-- The values a saturated product takes. -/
def InBounds (point : List ℕ) : Prop := ∀ p ∈ point, 1 ≤ p ∧ p ≤ cap

theorem inside_replicate (hpoint : point.length = groups.length) :
    Inside (List.replicate groups.length (1, cap)) point ↔ InBounds point := by
  constructor
  · intro h p hp
    obtain ⟨i, hi⟩ := mem_iff_getElem?.mp hp
    obtain ⟨hlt, -⟩ := List.getElem?_eq_some_iff.mp hi
    exact h i (1, cap) p (getElem?_replicate_of_lt (hpoint ▸ hlt)) hi
  · intro h i side p hside hp
    rw [eq_of_mem_replicate (mem_of_getElem? hside)]
    exact h p (mem_of_getElem? hp)

variable {claim : Claim}

/-- **A claim's box holds the points its rules admit.** -/
theorem Cell.of_spec (hgroup : ∀ rule ∈ claim.rules, rule.axes ≠ [] → groupOf rule ∈ groups) :
    match Cell.of claim groups with
    | none => ∀ point : List ℕ, point.length = groups.length →
        ¬ (InBounds point ∧ ∀ rule ∈ claim.rules, Admits groups point rule)
    | some cell => cell.sides.length = groups.length ∧ (∀ side ∈ cell.sides, side.1 ≤ side.2) ∧
        ∀ point : List ℕ, point.length = groups.length →
          (Inside cell.sides point ↔
            InBounds point ∧ ∀ rule ∈ claim.rules, Admits groups point rule) := by
  have hfold (point : List ℕ) (hpoint : point.length = groups.length) :=
    Cell.foldlM_cutBy hgroup (length_replicate (a := (1, cap))) hpoint
  unfold Cell.of
  rw [bind_eq_bind]
  cases hsides : claim.rules.foldlM (Cell.cutBy groups)
      (List.replicate groups.length (1, cap)) with
  | none =>
    intro point hpoint h
    have hnone := hfold point hpoint
    rw [hsides] at hnone
    exact hnone h.2
  | some sides =>
    have hlength : sides.length = groups.length := by
      have hsome := hfold (List.replicate groups.length 0) (length_replicate ..)
      rw [hsides] at hsome
      exact hsome.1
    have hinside (point : List ℕ) (hpoint : point.length = groups.length) :
        Inside sides point ↔ InBounds point ∧ ∀ rule ∈ claim.rules, Admits groups point rule := by
      have hsome := hfold point hpoint
      rw [hsides] at hsome
      rw [← inside_replicate hpoint]
      exact hsome.2
    rw [bind_some]
    by_cases hall : (sides.all fun side => decide (side.1 ≤ side.2)) = true
    · rw [if_pos hall]
      refine ⟨hlength, fun side hside => ?_, hinside⟩
      exact of_decide_eq_true (List.all_eq_true.mp hall side hside)
    · rw [if_neg hall]
      intro point hpoint h
      have hpoints := (hinside point hpoint).mpr h
      refine hall (List.all_eq_true.mpr fun side hside => decide_eq_true ?_)
      obtain ⟨i, hi⟩ := mem_iff_getElem?.mp hside
      obtain ⟨hlt, -⟩ := List.getElem?_eq_some_iff.mp hi
      have hin := hpoints i side _ hi (getElem?_eq_getElem (hpoint ▸ hlength ▸ hlt))
      exact hin.1.trans hin.2

/-! ### Points as shapes -/

theorem Gathered.inBounds (h : Gathered rules groups)
    (hshape : ∀ rule ∈ rules, Resolves shape rule.axes) : InBounds (pointOf shape groups) := by
  intro p hp
  obtain ⟨group, hgroup, rfl⟩ := List.mem_map.mp hp
  obtain ⟨rule, hrule, -, rfl⟩ := h.of_rule group hgroup
  rw [saturated_perm (groupOf_perm rule)]
  exact (hshape rule hrule).saturated_mem

/-- The first axis of a group takes the group's coordinate, every other axis one. -/
def extentAt (groups : List (List String)) (point : List ℕ) (axis : String) : ℕ :=
  (((groups.zip point).find? fun entry => entry.1.head? == some axis).map Prod.snd).getD 1

def shapeAt (groups : List (List String)) (point : List ℕ) : Shape :=
  fun axis => some (UInt64.ofNat (extentAt groups point axis))

theorem extentAt_mem (hpoint : InBounds point) (axis : String) :
    1 ≤ extentAt groups point axis ∧ extentAt groups point axis ≤ cap := by
  unfold extentAt
  cases hfind : (groups.zip point).find? fun entry => entry.1.head? == some axis with
  | none => exact ⟨le_rfl, by decide⟩
  | some entry => exact hpoint _ (of_mem_zip (mem_of_find?_eq_some hfind)).2

theorem extentOf_shapeAt (hpoint : InBounds point) (axis : String) :
    extentOf (shapeAt groups point) axis = extentAt groups point axis := by
  obtain ⟨-, hle⟩ := @extentAt_mem groups point hpoint axis
  have hlt : extentAt groups point axis < UInt64.size := lt_of_le_of_lt hle (by decide)
  exact UInt64.toNat_ofNat_of_lt hlt

theorem resolves_shapeAt (hpoint : InBounds point) (axes : List String) :
    Resolves (shapeAt groups point) axes := by
  intro axis _
  refine ⟨_, rfl, ?_⟩
  have hextent : (UInt64.ofNat (extentAt groups point axis)).toNat = extentAt groups point axis :=
    extentOf_shapeAt hpoint axis
  rw [UInt64.lt_iff_toNat_lt, hextent]
  exact (extentAt_mem hpoint axis).1

/-- **Every point is a shape's**: the groups' products vary independently. -/
theorem Gathered.pointOf_shapeAt (h : Gathered rules groups)
    (hnodup : ∀ rule ∈ rules, rule.axes.Nodup) (hlength : point.length = groups.length)
    (hpoint : InBounds point) : pointOf (shapeAt groups point) groups = point := by
  refine ext_getElem (by rw [pointOf, length_map, hlength]) fun i hi hip => ?_
  rw [pointOf, length_map] at hi
  rw [show (pointOf (shapeAt groups point) groups)[i] = saturated (shapeAt groups point) groups[i]
    from getElem_map _]
  obtain ⟨rule, hrule, hne, hgroup⟩ := h.of_rule groups[i] (getElem_mem hi)
  have hdistinct : groups[i].Nodup := hgroup ▸ (groupOf_perm rule).nodup_iff.mpr (hnodup rule hrule)
  -- an axis of this group starts no other group
  have hown {j : ℕ} (hj : j < groups.length) {axis : String} (haxis : axis ∈ groups[i])
      (hhead : groups[j].head? = some axis) : j = i := by
    by_contra hji
    have hin : axis ∈ groups[j] := mem_of_head? hhead
    rcases Nat.lt_or_gt_of_ne hji with hlt | hgt
    · exact pairwise_iff_getElem.mp h.disjoint j i hj hi hlt hin haxis
    · exact pairwise_iff_getElem.mp h.disjoint i j hi hj hgt haxis hin
  have hfirst {axis : String} (haxis : axis ∈ groups[i]) :
      extentAt groups point axis = if groups[i].head? = some axis then point[i] else 1 := by
    unfold extentAt
    cases hfind : (groups.zip point).find? fun entry => entry.1.head? == some axis with
    | none =>
      rw [if_neg fun hhead => ?_]
      · rfl
      · have hmem : (groups[i], point[i]) ∈ groups.zip point := by
          rw [← getElem_zip (h := by rw [length_zip]; omega)]
          exact getElem_mem _
        exact find?_eq_none.mp hfind _ hmem (by rw [hhead]; exact beq_self_eq_true _)
    | some entry =>
      obtain ⟨j, hj⟩ := mem_iff_getElem?.mp (mem_of_find?_eq_some hfind)
      obtain ⟨hgroup', hvalue⟩ := getElem?_zip_eq_some.mp hj
      obtain ⟨hj', hentry⟩ := List.getElem?_eq_some_iff.mp hgroup'
      have hfound := find?_some hfind
      have hhead : entry.1.head? = some axis := beq_iff_eq.mp hfound
      obtain rfl := hown hj' haxis (hentry ▸ hhead)
      obtain ⟨_, hvalue⟩ := List.getElem?_eq_some_iff.mp hvalue
      rw [if_pos (hentry ▸ hhead), hvalue]
      rfl
  have hprod : (groups[i].map (extentOf (shapeAt groups point))).prod = point[i] := by
    obtain ⟨first, rest, hparts⟩ : ∃ first rest, groups[i] = first :: rest :=
      exists_cons_of_ne_nil (hgroup ▸ fun hnil => hne (groupOf_eq_nil.mp hnil))
    rw [hparts] at hdistinct hfirst ⊢
    have hrest : (rest.map (extentOf (shapeAt groups point))).prod = 1 := by
      refine prod_eq_one fun n hn => ?_
      obtain ⟨axis, haxis, rfl⟩ := List.mem_map.mp hn
      have hother : ¬ (first :: rest).head? = some axis := fun heq =>
        (nodup_cons.mp hdistinct).1 (some.inj heq ▸ haxis)
      rw [extentOf_shapeAt hpoint, hfirst (.tail _ haxis), if_neg hother]
    rw [map_cons, prod_cons, hrest, Nat.mul_one, extentOf_shapeAt hpoint,
      hfirst (.head _), if_pos (show (first :: rest).head? = some first from rfl)]
  rw [saturated, hprod]
  exact min_eq_left (hpoint _ (getElem_mem hip)).2

/-! ### Coverage -/

/-- A claim holds for a shape when its rules admit the shape's point. -/
theorem Claim.holds_iff (hgroup : ∀ rule ∈ claim.rules, rule.axes ≠ [] → groupOf rule ∈ groups)
    (hshape : ∀ rule ∈ claim.rules, Resolves shape rule.axes) :
    claim.holds shape = true ↔ ∀ rule ∈ claim.rules, Admits groups (pointOf shape groups) rule := by
  rw [Claim.holds, List.all_eq_true]
  exact forall₂_congr fun rule hrule =>
    ShapeRule.holds_iff (hgroup rule hrule) (hshape rule hrule)

/-- The answer, once the groups are known. -/
theorem coveredBy_groups {others : List Claim}
    (h : Gathered ((claim :: others).flatMap Claim.rules) groups)
    (hnodup : ∀ c ∈ claim :: others, ∀ rule ∈ c.rules, rule.axes.Nodup) :
    (match Cell.of claim groups with
      | none => true
      | some target =>
        target.coveredBy (others.filterMap fun other => Cell.of other groups)) = true ↔
    ∀ shape : Shape, (∀ c ∈ claim :: others, ∀ rule ∈ c.rules, Resolves shape rule.axes) →
      claim.holds shape = true → ∃ other ∈ others, other.holds shape = true := by
  have hgroup : ∀ c ∈ claim :: others, ∀ rule ∈ c.rules, rule.axes ≠ [] → groupOf rule ∈ groups :=
    fun c hc rule hrule => h.mem rule (mem_flatMap.mpr ⟨c, hc, hrule⟩)
  have hlength (shape : Shape) : (pointOf shape groups).length = groups.length := length_map ..
  have hbounds {shape : Shape}
      (hshape : ∀ c ∈ claim :: others, ∀ rule ∈ c.rules, Resolves shape rule.axes) :
      InBounds (pointOf shape groups) := by
    refine h.inBounds fun rule hrule => ?_
    obtain ⟨c, hc, hrule⟩ := mem_flatMap.mp hrule
    exact hshape c hc rule hrule
  -- a point in bounds is as good as a shape
  have hpoints : (∀ shape : Shape, (∀ c ∈ claim :: others, ∀ rule ∈ c.rules,
        Resolves shape rule.axes) → claim.holds shape = true →
        ∃ other ∈ others, other.holds shape = true) ↔
      ∀ point : List ℕ, point.length = groups.length → InBounds point →
        (∀ rule ∈ claim.rules, Admits groups point rule) →
        ∃ other ∈ others, ∀ rule ∈ other.rules, Admits groups point rule := by
    constructor
    · intro hshapes point hpoint hin hadmits
      have heq := h.pointOf_shapeAt (fun rule hrule => by
        obtain ⟨c, hc, hrule⟩ := mem_flatMap.mp hrule
        exact hnodup c hc rule hrule) hpoint hin
      have hresolves (axes : List String) := @resolves_shapeAt groups point hin axes
      obtain ⟨other, hother, hholds⟩ := hshapes (shapeAt groups point)
        (fun _ _ rule _ => hresolves rule.axes) ((Claim.holds_iff (hgroup claim (.head _))
          fun rule _ => hresolves rule.axes).mpr (heq.symm ▸ hadmits))
      have hholds := (Claim.holds_iff (hgroup other (.tail _ hother))
        fun rule _ => hresolves rule.axes).mp hholds
      exact ⟨other, hother, heq ▸ hholds⟩
    · intro hall shape hshape hholds
      have hadmits := (Claim.holds_iff (hgroup claim (.head _)) (hshape claim (.head _))).mp hholds
      obtain ⟨other, hother, hadmits⟩ := hall (pointOf shape groups) (hlength shape)
        (hbounds hshape) hadmits
      exact ⟨other, hother, (Claim.holds_iff (hgroup other (.tail _ hother))
        (hshape other (.tail _ hother))).mpr hadmits⟩
  rw [hpoints]
  have htarget := Cell.of_spec (hgroup claim (.head _))
  cases hcell : Cell.of claim groups with
  | none =>
    rw [hcell] at htarget
    exact iff_of_true rfl fun point hpoint hin hadmits =>
      absurd ⟨hin, hadmits⟩ (htarget point hpoint)
  | some target =>
    rw [hcell] at htarget
    obtain ⟨hlen, hsides, hinside⟩ := htarget
    refine (Cell.coveredBy_iff hsides).trans ?_
    rw [hlen]
    refine forall₂_congr fun point hpoint => ?_
    rw [hinside point hpoint, and_imp]
    refine forall₂_congr fun hin _ => ?_
    constructor
    · rintro ⟨cover, hcover, hcovers⟩
      obtain ⟨other, hother, hof⟩ := mem_filterMap.mp hcover
      have hspec := Cell.of_spec (hgroup other (.tail _ hother))
      rw [hof] at hspec
      exact ⟨other, hother, ((hspec.2.2 point hpoint).mp hcovers).2⟩
    · rintro ⟨other, hother, hadmits⟩
      have hspec := Cell.of_spec (hgroup other (.tail _ hother))
      cases hof : Cell.of other groups with
      | none =>
        rw [hof] at hspec
        exact absurd ⟨hin, hadmits⟩ (hspec point hpoint)
      | some cover =>
        rw [hof] at hspec
        exact ⟨cover, mem_filterMap.mpr ⟨other, hother, hof⟩,
          (hspec.2.2 point hpoint).mpr ⟨hin, hadmits⟩⟩

/-- **Claim coverage is exact**: it is left undecided exactly when two axis sets overlap, it is
positive exactly when every shape of the claim is a shape of another one, and its search looks at
every sub-box at most once and, before it finds none uncovered, at all of them. -/
theorem coverage_exact (claim : Claim) (others : List Claim)
    (hnodup : ∀ c ∈ claim :: others, ∀ rule ∈ c.rules, rule.axes.Nodup) :
    (claim.coveredBy others = none ↔
      ∃ rule ∈ (claim :: others).flatMap Claim.rules,
        ∃ other ∈ (claim :: others).flatMap Claim.rules,
          (¬ ∀ axis, axis ∈ rule.axes ↔ axis ∈ other.axes) ∧
          ∃ axis, axis ∈ rule.axes ∧ axis ∈ other.axes) ∧
    (∀ answer, claim.coveredBy others = some answer → (answer = true ↔
      ∀ shape : Shape, (∀ c ∈ claim :: others, ∀ rule ∈ c.rules, Resolves shape rule.axes) →
        claim.holds shape = true → ∃ other ∈ others, other.holds shape = true)) ∧
    (∀ (target : Cell) (covers : List Cell),
      ((target.searchCovered covers).1.map (cornerAt (target.cuts covers))).Nodup ∧
      (∀ index ∈ (target.searchCovered covers).1,
        Corner (target.cuts covers) (cornerAt (target.cuts covers) index)) ∧
      ((target.searchCovered covers).2 = true → ∀ corner, Corner (target.cuts covers) corner →
        corner ∈ (target.searchCovered covers).1.map (cornerAt (target.cuts covers)))) := by
  have hspec := groupsOf_spec (claim :: others)
  have hrules : ∀ rule ∈ (claim :: others).flatMap Claim.rules, rule.axes.Nodup := by
    intro rule hrule
    obtain ⟨c, hc, hrule⟩ := List.mem_flatMap.mp hrule
    exact hnodup c hc rule hrule
  have hoverlap : Overlap ((claim :: others).flatMap Claim.rules) ↔
      ∃ rule ∈ (claim :: others).flatMap Claim.rules,
        ∃ other ∈ (claim :: others).flatMap Claim.rules,
          (¬ ∀ axis, axis ∈ rule.axes ↔ axis ∈ other.axes) ∧
          ∃ axis, axis ∈ rule.axes ∧ axis ∈ other.axes := by
    refine exists_congr fun rule => and_congr_right fun hrule => exists_congr fun other =>
      and_congr_right fun hother => and_congr_left fun _ => ?_
    exact not_congr (groupOf_eq_iff (hrules rule hrule) (hrules other hother))
  refine ⟨?_, ?_, fun target covers => Cell.searchCovered_once⟩
  · rw [← hoverlap]
    unfold Claim.coveredBy
    rw [Option.bind_eq_bind]
    cases hgroups : groupsOf (claim :: others) with
    | none =>
      rw [hgroups] at hspec
      exact iff_of_true rfl hspec
    | some groups =>
      rw [hgroups] at hspec
      refine iff_of_false ?_ hspec.not_overlap
      rw [Option.bind_some]
      cases Cell.of claim groups <;> simp
  · intro answer hanswer
    unfold Claim.coveredBy at hanswer
    rw [Option.bind_eq_bind] at hanswer
    obtain ⟨groups, hgroups, hanswer⟩ := Option.bind_eq_some_iff.mp hanswer
    rw [hgroups] at hspec
    rw [← coveredBy_groups hspec hnodup]
    cases hcell : Cell.of claim groups <;> rw [hcell] at hanswer <;>
      exact Option.some.inj hanswer ▸ Iff.rfl

/-- Two covers that only together leave no gap. -/
theorem coverage_exact_plane :
    let all := Claim.any.product ["plane"] (.included 2) (.included 64)
    let low := Claim.any.product ["plane"] (.included 2) (.included 4)
    let high := Claim.any.product ["plane"] (.included 5) .unbounded
    ∀ answer, all.coveredBy [low, high] = some answer → (answer = true ↔
      ∀ shape : Shape, (∀ c ∈ [all, low, high], ∀ rule ∈ c.rules, Resolves shape rule.axes) →
        all.holds shape = true → ∃ other ∈ [low, high], other.holds shape = true) :=
  (coverage_exact (Claim.any.product ["plane"] (.included 2) (.included 64))
    [Claim.any.product ["plane"] (.included 2) (.included 4),
      Claim.any.product ["plane"] (.included 5) .unbounded] (by decide)).2.1

end Retrograd.Rir
