import Retrograd.Training.Draws
import Retrograd.Logic.Tiles

/-!
# The plan of a preference run

Which pairs share an optimizer step, and how many steps a run takes. Both are functions of the epoch's
order and the pairs' costs alone: nothing of the plan is **stored**, and a resume derives it again.
-/

namespace Retrograd.Training.Preference

open Logic List

/-- `u64::MAX`. -/
def u64Max : ℕ := 2 ^ 64 - 1

/-- `u64::saturating_add`. -/
def saturatingAdd (a b : ℕ) : ℕ := min (a + b) u64Max

/-! ### Orders -/

/-- The order an epoch visits the pairs in: a permutation seeded by the run's seed and the epoch index,
or the file order. -/
def epochOrder (len : ℕ) (shuffle : Bool) (seed epoch : ℕ) : List ℕ :=
  if !shuffle then List.range len
  else shuffledIndices len ((UInt64.ofNat seed <<< 32) ^^^ (UInt64.ofNat epoch + 1))

theorem swap_perm {α : Type} (l : List α) (i j : ℕ) : (swap l i j).Perm l := by
  rw [swap]
  by_cases hi : i < l.length
  · by_cases hj : j < l.length
    · rw [getElem?_eq_getElem hi, getElem?_eq_getElem hj]
      exact set_set_perm hi hj
    · rw [getElem?_eq_none (Nat.le_of_not_lt hj)]
      cases l[i]? <;> exact .refl _
  · rw [getElem?_eq_none (Nat.le_of_not_lt hi)]

theorem shuffledIndices_perm (len : ℕ) (seed : UInt64) :
    (shuffledIndices len seed).Perm (List.range len) := by
  have hfold (uppers : List ℕ) (acc : List ℕ × UInt64) :
      (uppers.foldl shuffleStep acc).1.Perm acc.1 := by
    induction uppers generalizing acc with
    | nil => exact .refl _
    | cons upper uppers ih => exact (ih (shuffleStep acc upper)).trans (swap_perm ..)
  exact hfold _ _

theorem epochOrder_perm (len : ℕ) (shuffle : Bool) (seed epoch : ℕ) :
    (epochOrder len shuffle seed epoch).Perm (List.range len) := by
  cases shuffle with
  | false => exact .refl _
  | true => exact shuffledIndices_perm len _

/-! ### Chunks -/

/-- The ranges from `position` on, of which the first begins at `start` with `budget` spent. -/
def pairChunkLoop (costs : List ℕ) (period cap : ℕ) : List ℕ → ℕ → ℕ → ℕ → List (ℕ × ℕ)
  | [], position, start, _ => if start < position then [(start, position)] else []
  | pair :: order, position, start, budget =>
    let cost := costs.getD pair 0
    if start < position ∧ (period < saturatingAdd budget cost ∨ cap ≤ position - start) then
      (start, position) ::
        pairChunkLoop costs period cap order (position + 1) position (saturatingAdd 0 cost)
    else pairChunkLoop costs period cap order (position + 1) start (saturatingAdd budget cost)

/-- The pairs a chunk may hold. -/
def chunkCap (cap : Option ℕ) : ℕ := max (cap.getD usizeMax) 1

/-- Consecutive whole pairs, grouped while their summed cost fits one accumulation period and while the
group holds fewer than `cap` pairs. -/
def chunkPairs (order costs : List ℕ) (period : ℕ) (cap : Option ℕ) : List (ℕ × ℕ) :=
  pairChunkLoop costs period (chunkCap cap) order 0 0 0

/-- Where a resumed epoch starts: the index of the chunk that begins after `cursor` pairs. -/
def resumeChunk (chunks : List (ℕ × ℕ)) (cursor : ℕ) : Except Error ℕ :=
  if cursor = 0 then .ok 0
  else
    match chunks.findIdx? fun chunk => chunk.1 = cursor with
    | some index => .ok index
    | none =>
      if (chunks.getLast?).map Prod.snd = some cursor then .ok chunks.length
      else .error (.checkpoint s!"the checkpoint resumes {cursor} pairs into an epoch, which is not the start of an optimizer step of this run: the pairs, their order or the step geometry changed since it was written")

/-- The pairs of a chunk. -/
def slice {α : Type} (order : List α) (chunk : ℕ × ℕ) : List α :=
  (order.drop chunk.1).take (chunk.2 - chunk.1)

/-- The cost of some pairs together. -/
def costOf (costs pairs : List ℕ) : ℕ := (pairs.map fun pair => costs.getD pair 0).sum

/-- What the chunks of an epoch are: ranges that cut the order, none of them empty, each with at most
the cap's pairs and, but for a pair of its own, at most the period's cost. The cost is counted up to
`u64::MAX`. -/
structure Chunked (order costs : List ℕ) (period cap : ℕ) (chunks : List (ℕ × ℕ)) : Prop where
  tiles : Tiles 0 order.length chunks
  cap (chunk : ℕ × ℕ) (h : chunk ∈ chunks) : chunk.2 - chunk.1 ≤ cap
  cost (chunk : ℕ × ℕ) (h : chunk ∈ chunks) (hmany : chunk.1 + 1 < chunk.2) :
    min (costOf costs (slice order chunk)) u64Max ≤ period

theorem saturatingAdd_min (a b : ℕ) : saturatingAdd (min a u64Max) b = min (a + b) u64Max := by
  rw [saturatingAdd]
  omega

theorem pairChunkLoop_chunked (order costs : List ℕ) (period : ℕ) {rest : List ℕ} {cap : ℕ}
    (position start : ℕ) (hcap : 0 < cap) (hrest : order.drop position = rest) (hposition : position ≤ order.length)
    (hstart : start ≤ position) (hheld : position - start ≤ cap)
    (hbudget : start + 1 < position →
      min (costOf costs (slice order (start, position))) u64Max ≤ period) :
    let chunks := pairChunkLoop costs period cap rest position start
      (min (costOf costs (slice order (start, position))) u64Max)
    Tiles start order.length chunks ∧ ∀ chunk ∈ chunks, chunk.2 - chunk.1 ≤ cap ∧
      (chunk.1 + 1 < chunk.2 → min (costOf costs (slice order chunk)) u64Max ≤ period) := by
  induction rest generalizing position start with
  | nil =>
    have hlength : position = order.length := by
      have := drop_eq_nil_iff.mp hrest
      omega
    rw [pairChunkLoop]
    split_ifs with hlt
    · refine ⟨.cons hlt (hlength ▸ .nil _), fun chunk hchunk => ?_⟩
      obtain rfl := mem_singleton.mp hchunk
      exact ⟨hheld, hbudget⟩
    · obtain rfl : start = position := by omega
      exact ⟨hlength ▸ .nil _, fun chunk hchunk => absurd hchunk not_mem_nil⟩
  | cons pair rest ih =>
    have hlt : position < order.length := by
      by_contra hge
      rw [drop_eq_nil_of_le (by omega)] at hrest
      cases hrest
    rw [drop_eq_getElem_cons hlt] at hrest
    obtain ⟨hpair, hnext⟩ := cons.inj hrest
    have hgrown (first : ℕ) (hfirst : first ≤ position) :
        slice order (first, position + 1) = slice order (first, position) ++ [pair] := by
      rw [slice, slice, show position + 1 - first = position - first + 1 by omega, take_add_one,
        getElem?_drop, show first + (position - first) = position by omega,
        getElem?_eq_getElem hlt, hpair]
      rfl
    have hcost (first : ℕ) (hfirst : first ≤ position) :
        saturatingAdd (min (costOf costs (slice order (first, position))) u64Max)
          (costs.getD pair 0) =
            min (costOf costs (slice order (first, position + 1))) u64Max := by
      rw [saturatingAdd_min, hgrown first hfirst, costOf, costOf, map_append, sum_append]
      simp
    rw [pairChunkLoop]
    dsimp only
    split_ifs with hfull
    · -- The chunk is closed, and the pair starts the next one.
      have hempty : min (costOf costs (slice order (position, position))) u64Max = 0 := by
        simp [slice, costOf]
      have hone := hcost position le_rfl
      rw [hempty] at hone
      rw [hone]
      obtain ⟨htiles, hchunks⟩ := ih (position + 1) position hnext hlt (Nat.le_succ _) (by omega)
        (fun hmany => absurd hmany (lt_irrefl _))
      refine ⟨.cons hfull.1 htiles, fun chunk hchunk => ?_⟩
      rcases mem_cons.mp hchunk with rfl | hchunk
      · exact ⟨hheld, hbudget⟩
      · exact hchunks chunk hchunk
    · rw [hcost start hstart]
      refine ih (position + 1) start hnext hlt (by omega) (by omega) fun hmany => ?_
      rw [← hcost start hstart]
      exact Nat.le_of_not_lt fun hover => hfull ⟨by omega, .inl hover⟩

/-- The chunks of an epoch cut its order within the cap and the period. -/
theorem chunkPairs_chunked (order costs : List ℕ) (period : ℕ) (cap : Option ℕ) :
    Chunked order costs period (chunkCap cap) (chunkPairs order costs period cap) := by
  have hcap : 0 < chunkCap cap := by
    rw [chunkCap]
    omega
  obtain ⟨htiles, hchunks⟩ := pairChunkLoop_chunked order costs period 0 0 hcap rfl
    (Nat.zero_le _) le_rfl (Nat.zero_le _) (fun hmany => absurd hmany (by omega))
  exact ⟨htiles, fun chunk hchunk => (hchunks chunk hchunk).1,
    fun chunk hchunk => (hchunks chunk hchunk).2⟩

end Retrograd.Training.Preference
