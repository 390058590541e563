import Mathlib.Data.Finset.Max
import Mathlib.Data.List.GetD
import Retrograd.Rir.Claim

/-!
# Boxes and their sub-boxes

A side cut at every bound of the covers leaves sub-boxes on which no cover changes its mind, so the
**lowest corner** of each decides for all of it, and the search over the corners decides whether the
covers leave a point out.
-/

namespace Retrograd.Rir

open Logic List

/-- A point within some sides. -/
def Inside (sides : List (ℕ × ℕ)) (point : List ℕ) : Prop :=
  ∀ (i : ℕ) (side : ℕ × ℕ) (p : ℕ), sides[i]? = some side → point[i]? = some p →
    side.1 ≤ p ∧ p ≤ side.2

theorem Cell.contains_iff {cell : Cell} {point : List ℕ} :
    cell.contains point = true ↔ Inside cell.sides point := by
  rw [Cell.contains, all_eq_true]
  constructor
  · intro h i side p hside hp
    have hmem : (side, p) ∈ cell.sides.zip point :=
      mem_of_getElem? (getElem?_zip_eq_some.mpr ⟨hside, hp⟩)
    exact of_decide_eq_true (h _ hmem)
  · rintro h ⟨side, p⟩ hmem
    obtain ⟨i, hi⟩ := mem_iff_getElem?.mp hmem
    obtain ⟨hside, hp⟩ := getElem?_zip_eq_some.mp hi
    exact decide_eq_true (h i side p hside hp)

/-! ### One side -/

theorem mem_startsIn {lo hi s : ℕ} {bounds : List (ℕ × ℕ)} :
    s ∈ startsIn lo hi bounds ↔
      s = lo ∨ ∃ bound ∈ bounds, (s = bound.1 ∨ s = bound.2 + 1) ∧ lo < s ∧ s ≤ hi := by
  simp only [startsIn, mem_dedup, mem_mergeSort, mem_cons, mem_flatMap,
    mem_filter, not_mem_nil, or_false, decide_eq_true_eq]

theorem nodup_startsIn (lo hi : ℕ) (bounds : List (ℕ × ℕ)) : (startsIn lo hi bounds).Nodup :=
  nodup_dedup _

theorem startsIn_within {lo hi s : ℕ} {bounds : List (ℕ × ℕ)} (hside : lo ≤ hi)
    (h : s ∈ startsIn lo hi bounds) : lo ≤ s ∧ s ≤ hi := by
  rcases mem_startsIn.mp h with rfl | ⟨bound, -, -, hlo, hhi⟩
  · exact ⟨le_rfl, hside⟩
  · exact ⟨hlo.le, hhi⟩

/-- **The last start at or below a point is covered by what covers the point.** -/
theorem exists_start {lo hi p : ℕ} (bounds : List (ℕ × ℕ)) (hlo : lo ≤ p) (hhi : p ≤ hi) :
    ∃ s ∈ startsIn lo hi bounds, ∀ bound ∈ bounds,
      (bound.1 ≤ p ∧ p ≤ bound.2 ↔ bound.1 ≤ s ∧ s ≤ bound.2) := by
  have hne : (((startsIn lo hi bounds).filter fun s => decide (s ≤ p)).toFinset).Nonempty :=
    ⟨lo, by simp [mem_startsIn, hlo]⟩
  set s := Finset.max' _ hne with hs
  have hmax (t : ℕ) (ht : t ∈ startsIn lo hi bounds) (htp : t ≤ p) : t ≤ s :=
    Finset.le_max' _ t (by simp [ht, htp])
  have hmem : s ∈ startsIn lo hi bounds ∧ s ≤ p := by
    have := Finset.max'_mem _ hne
    rw [← hs] at this
    simpa using this
  obtain ⟨hstart, hsp⟩ := hmem
  have hlos : lo ≤ s := hmax lo (mem_startsIn.mpr (.inl rfl)) hlo
  refine ⟨s, hstart, fun bound hbound => ⟨fun ⟨hge, hle⟩ => ⟨?_, hsp.trans hle⟩,
    fun ⟨hge, hle⟩ => ⟨hge.trans hsp, ?_⟩⟩⟩
  · -- a bound that begins inside the side is a start of its own
    rcases Nat.lt_or_ge lo bound.1 with hlt | hlt
    · exact hmax _ (mem_startsIn.mpr (.inr ⟨bound, hbound, .inl rfl, hlt, hge.trans hhi⟩)) hge
    · exact hlt.trans hlos
  · by_contra hgt
    -- past its end there is another start, between this one and the point
    have hnext : bound.2 + 1 ≤ s := hmax _ (mem_startsIn.mpr
      (.inr ⟨bound, hbound, .inr rfl, by omega, by omega⟩)) (by omega)
    omega

/-! ### All sides -/

variable {cell : Cell} {covers : List Cell}

theorem Cell.getElem?_cuts (i : ℕ) : (cell.cuts covers)[i]? = cell.sides[i]?.map fun side =>
    startsIn side.1 side.2 (covers.map fun cover => cover.sides.getD i (0, 0)) := by
  rw [Cell.cuts, getElem?_map, getElem?_zipIdx, Option.map_map, Nat.zero_add]
  rfl

theorem Cell.length_cuts : (cell.cuts covers).length = cell.sides.length := by
  rw [Cell.cuts, length_map, length_zipIdx]

/-- A corner: one start for every side. -/
def Corner (cuts : List (List ℕ)) (corner : List ℕ) : Prop :=
  List.Forall₂ (fun s starts => s ∈ starts) corner cuts

theorem InRange.corner : ∀ {cuts : List (List ℕ)} {index : List ℕ},
    InRange (cuts.map List.length) index → Corner cuts (cornerAt cuts index)
  | [], _, h => by cases h; exact .nil
  | starts :: cuts, _, h => by
    obtain _ | ⟨hi, hrest⟩ := h
    refine .cons ?_ (InRange.corner hrest)
    dsimp only
    rw [getD_eq_getElem _ _ hi]
    exact getElem_mem hi

theorem Corner.exists_index {cuts : List (List ℕ)} {corner : List ℕ} (h : Corner cuts corner) :
    ∃ index, InRange (cuts.map List.length) index ∧ cornerAt cuts index = corner := by
  induction h with
  | nil => exact ⟨[], .nil, rfl⟩
  | @cons s starts corner cuts hs _ ih =>
    obtain ⟨index, hindex, rfl⟩ := ih
    obtain ⟨i, hi, rfl⟩ := mem_iff_getElem.mp hs
    refine ⟨i :: index, .cons hi hindex, ?_⟩
    rw [cornerAt, zipWith_cons_cons, getD_eq_getElem _ _ hi]
    rfl

/-- Different indices are different corners. -/
theorem InRange.eq_of_corner : ∀ {cuts : List (List ℕ)} {index other : List ℕ},
    (∀ starts ∈ cuts, starts.Nodup) → InRange (cuts.map List.length) index →
    InRange (cuts.map List.length) other → cornerAt cuts index = cornerAt cuts other →
    index = other
  | [], _, _, _, h, hother, _ => by cases h; cases hother; rfl
  | starts :: cuts, _, _, hnodup, h, hother, heq => by
    obtain _ | ⟨hi, hrest⟩ := h
    obtain _ | ⟨hj, hothers⟩ := hother
    rw [cornerAt, cornerAt, zipWith_cons_cons, zipWith_cons_cons, cons.injEq,
      getD_eq_getElem _ _ hi, getD_eq_getElem _ _ hj] at heq
    rw [(hnodup _ (.head _)).getElem_inj_iff.mp heq.1,
      InRange.eq_of_corner (fun starts hstarts => hnodup _ (.tail _ hstarts)) hrest hothers heq.2]

/-- A point within the sides has a corner that the covers do not tell from it. -/
theorem exists_corner {point : List ℕ} (hlength : point.length = cell.sides.length)
    (h : Inside cell.sides point) :
    ∃ corner, Corner (cell.cuts covers) corner ∧
      ∀ cover ∈ covers, Inside cover.sides corner → Inside cover.sides point := by
  have hstart : ∀ i : Fin point.length, ∃ s, (∀ starts, (cell.cuts covers)[i.1]? = some starts →
      s ∈ starts) ∧ ∀ bound ∈ covers.map fun cover => cover.sides.getD i.1 (0, 0),
      (bound.1 ≤ point[i] ∧ point[i] ≤ bound.2 ↔ bound.1 ≤ s ∧ s ≤ bound.2) := by
    intro i
    obtain ⟨side, hside⟩ : ∃ side, cell.sides[i.1]? = some side :=
      ⟨_, getElem?_eq_getElem (hlength ▸ i.2)⟩
    obtain ⟨hlo, hhi⟩ := h i.1 _ _ hside (getElem?_eq_getElem i.2)
    obtain ⟨s, hs, hbounds⟩ := exists_start (covers.map fun cover => cover.sides.getD i.1 (0, 0))
      hlo hhi
    refine ⟨s, fun starts hstarts => ?_, hbounds⟩
    rw [Cell.getElem?_cuts, hside, Option.map_some, Option.some.injEq] at hstarts
    exact hstarts ▸ hs
  choose starts hstarts hbounds using hstart
  refine ⟨List.ofFn starts, ?_, fun cover hcover hinside i side p hside hp => ?_⟩
  · rw [Corner, forall₂_iff_get]
    refine ⟨by rw [length_ofFn, Cell.length_cuts, hlength], fun i hi hi' => ?_⟩
    rw [length_ofFn] at hi
    rw [get_ofFn]
    exact hstarts ⟨i, hi⟩ _ (getElem?_eq_getElem hi')
  · obtain ⟨hi, rfl⟩ := List.getElem?_eq_some_iff.mp hp
    have hcorner : (List.ofFn starts)[i]? = some (starts ⟨i, hi⟩) := by
      rw [List.getElem?_ofFn, dif_pos hi]
    have hbound : side ∈ covers.map fun cover => cover.sides.getD i (0, 0) := by
      refine mem_map.mpr ⟨cover, hcover, ?_⟩
      rw [getD_eq_getElem?_getD, hside, Option.getD_some]
    exact (hbounds ⟨i, hi⟩ side hbound).mpr (hinside i side _ hside hcorner)

/-- A corner is a point of the box. -/
theorem Corner.inside (hsides : ∀ side ∈ cell.sides, side.1 ≤ side.2) {corner : List ℕ}
    (h : Corner (cell.cuts covers) corner) :
    corner.length = cell.sides.length ∧ Inside cell.sides corner := by
  obtain ⟨hlength, hmem⟩ := forall₂_iff_get.mp h
  rw [Cell.length_cuts] at hlength
  refine ⟨hlength, fun i side p hside hp => ?_⟩
  obtain ⟨hi, rfl⟩ := List.getElem?_eq_some_iff.mp hp
  have hcut := @Cell.getElem?_cuts cell covers i
  rw [hside, Option.map_some] at hcut
  obtain ⟨hi', hcut⟩ := List.getElem?_eq_some_iff.mp hcut
  have hs := hmem i hi hi'
  rw [get_eq_getElem, get_eq_getElem, hcut] at hs
  exact startsIn_within (hsides _ (mem_of_getElem? hside)) hs

variable (cell covers) in
/-- Every side has at least its own start. -/
theorem cuts_ne_nil : ∀ size ∈ (cell.cuts covers).map List.length, 0 < size := by
  intro size hsize
  obtain ⟨starts, hstarts, rfl⟩ := mem_map.mp hsize
  obtain ⟨i, hi⟩ := mem_iff_getElem?.mp hstarts
  rw [Cell.getElem?_cuts] at hi
  obtain ⟨side, -, rfl⟩ := Option.map_eq_some_iff.mp hi
  exact length_pos_of_mem (mem_startsIn.mpr (.inl rfl))

/-- **The search decides whether the covers leave a point out.** -/
theorem Cell.coveredBy_iff (hsides : ∀ side ∈ cell.sides, side.1 ≤ side.2) :
    cell.coveredBy covers = true ↔ ∀ point : List ℕ, point.length = cell.sides.length →
      Inside cell.sides point → ∃ cover ∈ covers, Inside cover.sides point := by
  have hwalk := walk_zero (fun index => covers.any fun cover =>
    cover.contains (cornerAt (cell.cuts covers) index)) (cuts_ne_nil cell covers)
  rw [length_map] at hwalk
  refine hwalk.2.2.2.trans ⟨fun h point hlength hpoint => ?_, fun h index hindex => ?_⟩
  · obtain ⟨corner, hcorner, hsame⟩ := exists_corner hlength hpoint
    obtain ⟨index, hindex, rfl⟩ := hcorner.exists_index
    obtain ⟨cover, hcover, hcontains⟩ := any_eq_true.mp (h index hindex)
    exact ⟨cover, hcover, hsame cover hcover (Cell.contains_iff.mp hcontains)⟩
  · obtain ⟨hlength, hinside⟩ := (InRange.corner hindex).inside hsides
    obtain ⟨cover, hcover, hcovered⟩ := h _ hlength hinside
    exact any_eq_true.mpr ⟨cover, hcover, Cell.contains_iff.mpr hcovered⟩

/-- **The search looks at no sub-box twice**, and at each before it finds that there is none
uncovered. -/
theorem Cell.searchCovered_once :
    ((cell.searchCovered covers).1.map (cornerAt (cell.cuts covers))).Nodup ∧
    (∀ index ∈ (cell.searchCovered covers).1,
      Corner (cell.cuts covers) (cornerAt (cell.cuts covers) index)) ∧
    ((cell.searchCovered covers).2 = true → ∀ corner, Corner (cell.cuts covers) corner →
      corner ∈ (cell.searchCovered covers).1.map (cornerAt (cell.cuts covers))) := by
  have hwalk := walk_zero (fun index => covers.any fun cover =>
    cover.contains (cornerAt (cell.cuts covers) index)) (cuts_ne_nil cell covers)
  rw [length_map] at hwalk
  obtain ⟨hnodup, hrange, hall, -⟩ := hwalk
  have hstarts : ∀ starts ∈ cell.cuts covers, starts.Nodup := by
    intro starts hstarts
    obtain ⟨i, hi⟩ := mem_iff_getElem?.mp hstarts
    rw [Cell.getElem?_cuts] at hi
    obtain ⟨side, -, rfl⟩ := Option.map_eq_some_iff.mp hi
    exact nodup_startsIn ..
  refine ⟨?_, fun index hindex => InRange.corner (hrange index hindex), fun hdone corner hcorner => ?_⟩
  · refine Nodup.map_on (fun index hindex other hother heq => ?_) hnodup
    exact InRange.eq_of_corner hstarts (hrange _ hindex) (hrange _ hother) heq
  · obtain ⟨index, hindex, rfl⟩ := hcorner.exists_index
    exact mem_map_of_mem (hall hdone index hindex)

end Retrograd.Rir
