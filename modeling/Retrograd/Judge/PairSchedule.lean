import Mathlib.Algebra.BigOperators.Intervals
import Mathlib.Tactic.Ring

/-!
# The comparison schedule

Which pairs of a group a pairwise judge compares. The **ring** comes first, the cheapest schedule
that gives every trajectory a comparison; the remaining pairs follow in lexicographic order, so a
larger limit only ever adds comparisons.
-/

namespace Retrograd.Judge

open List

/-- The pairs `(left, right)` with `left < right`, in lexicographic order. -/
def lexPairs (size : ℕ) : List (ℕ × ℕ) :=
  (List.range size).flatMap fun left =>
    ((List.range size).filter fun right => left < right).map fun right => (left, right)

/-- The ring `(0,1), (1,2), … (n-1,0)`; two trajectories are compared once. -/
def ring (size : ℕ) : List (ℕ × ℕ) :=
  if 2 < size then (List.range size).map fun index => (index, (index + 1) % size) else [(0, 1)]

/-- Adds a pair unless it is there in either order. -/
def pushPair (pairs : List (ℕ × ℕ)) (pair : ℕ × ℕ) : List (ℕ × ℕ) :=
  if !pairs.contains pair && !pairs.contains pair.swap then pairs ++ [pair] else pairs

/-- The unlimited schedule. -/
def everyPair (size : ℕ) : List (ℕ × ℕ) := (lexPairs size).foldl pushPair (ring size)

/-- Deterministic comparison schedule for a group of `size` trajectories. Fewer than `size`
comparisons would leave a trajectory unrewarded, so the floor is the ring itself. -/
def pairSchedule (size : ℕ) (maxPairs : Option ℕ) : List (ℕ × ℕ) :=
  if size < 2 then []
  else
    let pairs := everyPair size
    let limit := match maxPairs with
      | none => pairs.length
      | some most => max most (min size pairs.length)
    pairs.take limit

/-! ### Pairs without an order -/

/-- The pair with its smaller member first. -/
def sorted (pair : ℕ × ℕ) : ℕ × ℕ := (min pair.1 pair.2, max pair.1 pair.2)

theorem sorted_swap (pair : ℕ × ℕ) : sorted pair.swap = sorted pair := by
  simp [sorted, min_comm, max_comm]

theorem sorted_eq_iff {p q : ℕ × ℕ} : sorted p = sorted q ↔ p = q ∨ p = q.swap := by
  constructor
  · obtain ⟨a, b⟩ := p
    obtain ⟨c, d⟩ := q
    simp only [sorted, Prod.mk.injEq, Prod.swap_prod_mk]
    omega
  · rintro (rfl | rfl)
    · rfl
    · exact sorted_swap q

/-- No unordered pair is listed twice. -/
def Unrepeated (pairs : List (ℕ × ℕ)) : Prop := (pairs.map sorted).Nodup

theorem mem_sorted_iff {pairs : List (ℕ × ℕ)} {pair : ℕ × ℕ} :
    sorted pair ∈ pairs.map sorted ↔ pair ∈ pairs ∨ pair.swap ∈ pairs := by
  simp only [mem_map, sorted_eq_iff]
  constructor
  · rintro ⟨found, hmem, rfl | rfl⟩
    · exact .inl hmem
    · exact .inr (by simpa using hmem)
  · rintro (h | h)
    · exact ⟨pair, h, .inl rfl⟩
    · exact ⟨pair.swap, h, .inr rfl⟩

/-- One push: the pair is there afterwards, nothing is repeated, and what was there still leads. -/
theorem pushPair_spec {pairs : List (ℕ × ℕ)} (h : Unrepeated pairs) (pair : ℕ × ℕ) :
    Unrepeated (pushPair pairs pair) ∧ pairs <+: pushPair pairs pair ∧
      ∀ key, key ∈ (pushPair pairs pair).map sorted ↔ key ∈ pairs.map sorted ∨ key = sorted pair := by
  unfold pushPair
  split_ifs with hnew
  · have hfresh : sorted pair ∉ pairs.map sorted := by
      rw [mem_sorted_iff]
      simpa [not_or] using hnew
    refine ⟨?_, prefix_append pairs [pair], fun key => by simp⟩
    rw [Unrepeated, map_append, nodup_append]
    refine ⟨h, nodup_singleton _, ?_⟩
    rintro key hkey other hother rfl
    obtain rfl : key = sorted pair := mem_singleton.mp hother
    exact hfresh hkey
  · have hthere : sorted pair ∈ pairs.map sorted := by
      rw [mem_sorted_iff]
      by_contra hnot
      rw [not_or] at hnot
      exact hnew (by simp [hnot.1, hnot.2])
    refine ⟨h, prefix_refl pairs, fun key => ⟨.inl, ?_⟩⟩
    rintro (hkey | rfl)
    · exact hkey
    · exact hthere

/-- **All pushes.** -/
theorem foldl_pushPair_spec {pairs : List (ℕ × ℕ)} (h : Unrepeated pairs) (more : List (ℕ × ℕ)) :
    Unrepeated (more.foldl pushPair pairs) ∧ pairs <+: more.foldl pushPair pairs ∧
      ∀ key, key ∈ (more.foldl pushPair pairs).map sorted ↔
        key ∈ pairs.map sorted ∨ key ∈ more.map sorted := by
  induction more generalizing pairs with
  | nil => exact ⟨h, prefix_refl pairs, fun key => by simp⟩
  | cons pair more ih =>
    obtain ⟨hpush, hleads, hkeys⟩ := pushPair_spec h pair
    obtain ⟨hfold, hleads', hkeys'⟩ := ih hpush
    refine ⟨hfold, hleads.trans hleads', fun key => ?_⟩
    rw [foldl_cons, hkeys', hkeys, map_cons, mem_cons, or_assoc]

/-! ### The ring -/

/-- The next trajectory around the ring. -/
theorem succ_mod {index size : ℕ} (h : index < size) :
    (index + 1) % size = if index + 1 = size then 0 else index + 1 := by
  split_ifs with hlast
  · rw [hlast, Nat.mod_self]
  · exact Nat.mod_eq_of_lt (by omega)

theorem ring_unrepeated (size : ℕ) : Unrepeated (ring size) := by
  unfold ring
  split_ifs with hmany
  · rw [Unrepeated, map_map]
    refine (nodup_map_iff_inj_on nodup_range).mpr ?_
    intro i hi j hj hsame
    rw [mem_range] at hi hj
    have hi' := succ_mod hi
    have hj' := succ_mod hj
    -- around three or more, no pair of neighbours is its own reverse
    rcases sorted_eq_iff.mp hsame with heq | heq <;>
      simp only [Prod.mk.injEq, Prod.swap_prod_mk] at heq
    · exact heq.1
    · split_ifs at hi' hj' <;> omega
  · exact nodup_singleton _

/-- The ring pairs members of the group, and every member. -/
theorem ring_spec {size : ℕ} (h : 2 ≤ size) :
    (∀ pair ∈ ring size, pair.1 < size ∧ pair.2 < size ∧ pair.1 ≠ pair.2) ∧
      ∀ index < size, ∃ pair ∈ ring size, pair.1 = index ∨ pair.2 = index := by
  unfold ring
  split_ifs with hmany
  · constructor
    · intro pair hpair
      obtain ⟨index, hindex, rfl⟩ := mem_map.mp hpair
      rw [mem_range] at hindex
      have hnext := succ_mod hindex
      dsimp only
      split_ifs at hnext <;> omega
    · intro index hindex
      exact ⟨_, mem_map.mpr ⟨index, mem_range.mpr hindex, rfl⟩, .inl rfl⟩
  · constructor
    · intro pair hpair
      obtain rfl := mem_singleton.mp hpair
      omega
    · intro index hindex
      exact ⟨(0, 1), by simp, by omega⟩

theorem ring_length {size : ℕ} (h : 2 ≤ size) (pairs : List (ℕ × ℕ))
    (hring : ring size <+: pairs) : (ring size).length ≤ min size pairs.length := by
  have hle := hring.length_le
  unfold ring at hle ⊢
  split_ifs at hle ⊢
  · rw [length_map, length_range] at hle ⊢
    omega
  · simp only [length_singleton] at hle ⊢
    omega

/-! ### Every pair -/

theorem mem_lexPairs {size : ℕ} {pair : ℕ × ℕ} :
    pair ∈ lexPairs size ↔ pair.1 < pair.2 ∧ pair.2 < size := by
  obtain ⟨left, right⟩ := pair
  simp only [lexPairs, mem_flatMap, mem_range, mem_map, mem_filter,
    decide_eq_true_eq, Prod.mk.injEq]
  constructor
  · rintro ⟨_, -, _, ⟨hright, hlt⟩, rfl, rfl⟩
    exact ⟨hlt, hright⟩
  · rintro ⟨hlt, hright⟩
    exact ⟨left, hlt.trans hright, right, ⟨hright, hlt⟩, rfl, rfl⟩

theorem lexPairs_nodup (size : ℕ) : (lexPairs size).Nodup := by
  rw [lexPairs, nodup_flatMap]
  constructor
  · intro left _
    exact (nodup_range.filter _).map fun _ _ h => (Prod.mk.inj h).2
  · refine nodup_range.imp fun {i j} hne => ?_
    rw [Function.onFun, disjoint_left]
    rintro pair hi hj
    obtain ⟨_, -, rfl⟩ := mem_map.mp hi
    obtain ⟨_, -, heq⟩ := mem_map.mp hj
    exact hne (Prod.mk.inj heq).1.symm

private theorem length_filter_lt (left size : ℕ) :
    ((List.range size).filter fun right => left < right).length = size - 1 - left := by
  induction size with
  | zero => simp
  | succ size ih =>
    rw [range_succ, filter_append, length_append, ih]
    by_cases hlt : left < size
    · simp [hlt]
      omega
    · simp [hlt]
      omega

theorem lexPairs_length (size : ℕ) : (lexPairs size).length = size * (size - 1) / 2 := by
  have hlength : (lexPairs size).length = ∑ left ∈ Finset.range size, (size - 1 - left) := by
    simp only [lexPairs, length_flatMap, length_map, length_filter_lt]
    rfl
  rw [hlength, Finset.sum_range_reflect (fun index => index) size, Finset.sum_range_id]

theorem everyPair_spec {size : ℕ} (h : 2 ≤ size) :
    Unrepeated (everyPair size) ∧ ring size <+: everyPair size ∧
      ((everyPair size).map sorted).Perm (lexPairs size) := by
  obtain ⟨hnodup, hring, hkeys⟩ := foldl_pushPair_spec (ring_unrepeated size) (lexPairs size)
  refine ⟨hnodup, hring, (perm_ext_iff_of_nodup hnodup (lexPairs_nodup size)).mpr ?_⟩
  intro key
  rw [hkeys]
  have hlex (pair : ℕ × ℕ) (hpair : pair ∈ lexPairs size) : sorted pair = pair := by
    have hlt := (mem_lexPairs.mp hpair).1
    simp [sorted, hlt.le]
  constructor
  · rintro (hkey | hkey)
    · obtain ⟨pair, hpair, rfl⟩ := mem_map.mp hkey
      obtain ⟨hleft, hright, hne⟩ := (ring_spec h).1 pair hpair
      rw [mem_lexPairs, sorted]
      dsimp only
      omega
    · obtain ⟨pair, hpair, rfl⟩ := mem_map.mp hkey
      rwa [hlex pair hpair]
  · intro hkey
    exact .inr (mem_map.mpr ⟨key, hkey, hlex key hkey⟩)

/-! ### The schedule -/

/-- What a schedule is: pairs of the group, none of them twice in either order, with every
trajectory among them. -/
structure Scheduled (size : ℕ) (pairs : List (ℕ × ℕ)) : Prop where
  unrepeated : Unrepeated pairs
  members : ∀ pair ∈ pairs, pair.1 < size ∧ pair.2 < size ∧ pair.1 ≠ pair.2
  everyone : ∀ index < size, ∃ pair ∈ pairs, pair.1 = index ∨ pair.2 = index

theorem everyPair_members {size : ℕ} (h : 2 ≤ size) (pair : ℕ × ℕ) (hpair : pair ∈ everyPair size) :
    pair.1 < size ∧ pair.2 < size ∧ pair.1 ≠ pair.2 := by
  obtain ⟨-, -, hperm⟩ := everyPair_spec h
  have hmem : sorted pair ∈ lexPairs size :=
    hperm.mem_iff.mp (mem_map.mpr ⟨pair, hpair, rfl⟩)
  rw [mem_lexPairs, sorted] at hmem
  dsimp only at hmem
  omega

/-- The schedules of a group are prefixes of its unlimited one, no shorter than the ring. -/
theorem pairSchedule_eq {size : ℕ} (h : 2 ≤ size) (maxPairs : Option ℕ) :
    ∃ limit, (ring size).length ≤ limit ∧ pairSchedule size maxPairs = (everyPair size).take limit := by
  have hring := ring_length h _ (everyPair_spec h).2.1
  rw [pairSchedule, if_neg (by omega)]
  cases maxPairs with
  | none => exact ⟨(everyPair size).length, hring.trans (min_le_right _ _), rfl⟩
  | some most => exact ⟨_, hring.trans (le_max_right _ _), rfl⟩

theorem pairSchedule_scheduled {size : ℕ} (h : 2 ≤ size) (maxPairs : Option ℕ) :
    Scheduled size (pairSchedule size maxPairs) := by
  obtain ⟨limit, hlimit, heq⟩ := pairSchedule_eq h maxPairs
  obtain ⟨hnodup, hring, -⟩ := everyPair_spec h
  have hsub : (pairSchedule size maxPairs).Sublist (everyPair size) := by
    rw [heq]
    exact take_sublist limit _
  have hleads : ring size <+: pairSchedule size maxPairs := by
    rw [heq, prefix_take_iff]
    exact ⟨hring, hlimit⟩
  refine ⟨hnodup.sublist (hsub.map sorted), ?_, ?_⟩
  · exact fun pair hpair => everyPair_members h pair (hsub.subset hpair)
  · intro index hindex
    obtain ⟨pair, hpair, hat⟩ := (ring_spec h).2 index hindex
    exact ⟨pair, hleads.subset hpair, hat⟩

/-- **The schedule.** The unlimited one compares every pair once; a limited one is a prefix of it,
and a larger limit a longer prefix. -/
theorem pairSchedule_spec {size : ℕ} (h : 2 ≤ size) :
    (pairSchedule size none).length = size * (size - 1) / 2 ∧
      (∀ maxPairs, Scheduled size (pairSchedule size maxPairs) ∧
        pairSchedule size maxPairs <+: pairSchedule size none) ∧
      ∀ most more : ℕ, most ≤ more →
        pairSchedule size (some most) <+: pairSchedule size (some more) := by
  have hfull : pairSchedule size none = everyPair size := by
    rw [pairSchedule, if_neg (by omega)]
    exact take_length
  refine ⟨?_, fun maxPairs => ⟨pairSchedule_scheduled h maxPairs, ?_⟩, ?_⟩
  · rw [hfull, ← lexPairs_length, ← (everyPair_spec h).2.2.length_eq, length_map]
  · obtain ⟨limit, -, heq⟩ := pairSchedule_eq h maxPairs
    rw [heq, hfull]
    exact take_prefix limit _
  · intro most more hle
    simp only [pairSchedule, if_neg (show ¬size < 2 by omega)]
    exact take_prefix_take_left (max_le_max_right _ hle)

end Retrograd.Judge
