import Mathlib.Data.List.Basic
import Mathlib.Tactic.Ring

/-!
# Blocks of a flat array

An array that holds `k` entries for each of its positions, position after position. `blockAt` reads
a position's entries and `writeBlock` replaces them; **every position has its own entries**, so what
is written at one is read there and nowhere else.
-/

namespace Retrograd.Logic

open List

variable {α β : Type} {k : ℕ} {array : List α} {block : List α}

/-- The `k` entries of a position. -/
def blockAt (k : ℕ) (array : List α) (position : ℕ) : List α := (array.drop (position * k)).take k

/-- `copy_from_slice` into the entries of a position. -/
def writeBlock (k : ℕ) (array : List α) (position : ℕ) (block : List α) : List α :=
  array.take (position * k) ++ block ++ array.drop (position * k + block.length)

theorem blockAt_getElem? {position entry : ℕ} (h : entry < k) :
    (blockAt k array position)[entry]? = array[position * k + entry]? := by
  rw [blockAt, getElem?_take_of_lt h, getElem?_drop]

theorem length_blockAt {position : ℕ} (h : (position + 1) * k ≤ array.length) :
    (blockAt k array position).length = k := by
  rw [Nat.succ_mul] at h
  rw [blockAt, length_take, length_drop]
  omega

theorem blockAt_replicate {n position : ℕ} {a : α} (h : (position + 1) * k ≤ n) :
    blockAt k (List.replicate n a) position = List.replicate k a := by
  rw [Nat.succ_mul] at h
  rw [blockAt, drop_replicate, take_replicate]
  congr 1
  omega

/-- What holds of the entries of every block holds of all. -/
theorem forall_mem_zip {array' : List β} {n : ℕ} {P : α × β → Prop} (hk : k ≠ 0)
    (harray : array.length = n * k) (h : ∀ position < n,
      ∀ entry ∈ (blockAt k array position).zip (blockAt k array' position), P entry) :
    ∀ entry ∈ array.zip array', P entry := by
  intro entry hentry
  obtain ⟨index, hindex⟩ := mem_iff_getElem?.mp hentry
  obtain ⟨hleft, hright⟩ := getElem?_zip_eq_some.mp hindex
  have hlt : index < n * k := harray ▸ (List.getElem?_eq_some_iff.mp hleft).1
  have hmod : index % k < k := Nat.mod_lt _ (Nat.pos_of_ne_zero hk)
  -- the entry is in the block of its index over `k`
  refine h (index / k) (Nat.div_lt_of_lt_mul (Nat.mul_comm n k ▸ hlt)) entry
    (mem_iff_getElem?.mpr ⟨index % k, getElem?_zip_eq_some.mpr ⟨?_, ?_⟩⟩)
  · rw [blockAt_getElem? hmod, Nat.div_add_mod']
    exact hleft
  · rw [blockAt_getElem? hmod, Nat.div_add_mod']
    exact hright

/-! ### Writing -/

theorem length_writeBlock {position : ℕ} (hblock : block.length = k)
    (h : (position + 1) * k ≤ array.length) :
    (writeBlock k array position block).length = array.length := by
  rw [Nat.succ_mul] at h
  simp only [writeBlock, length_append, length_take, length_drop]
  omega

theorem blockAt_writeBlock_self {position : ℕ} (hblock : block.length = k)
    (h : (position + 1) * k ≤ array.length) :
    blockAt k (writeBlock k array position block) position = block := by
  have htake : (array.take (position * k)).length = position * k := by
    rw [Nat.succ_mul] at h
    rw [length_take]
    omega
  rw [blockAt, writeBlock, append_assoc, drop_left' htake, take_left' hblock]

theorem blockAt_writeBlock_of_ne {position other : ℕ} (hblock : block.length = k)
    (h : (position + 1) * k ≤ array.length) (hne : other ≠ position) :
    blockAt k (writeBlock k array position block) other = blockAt k array other := by
  refine ext_getElem? fun entry => ?_
  by_cases hentry : entry < k
  swap
  · have hnone (array : List α) : (blockAt k array other)[entry]? = none := by
      rw [blockAt, getElem?_take, if_neg hentry]
    rw [hnone, hnone]
  have htake : (array.take (position * k)).length = position * k := by
    rw [Nat.succ_mul] at h
    rw [length_take]
    omega
  rw [blockAt_getElem? hentry, blockAt_getElem? hentry, writeBlock, append_assoc]
  rcases Nat.lt_or_gt_of_ne hne with hlt | hgt
  · -- an earlier position
    have hindex : other * k + entry < position * k := by
      calc other * k + entry < other * k + k := Nat.add_lt_add_left hentry _
        _ = (other + 1) * k := (Nat.succ_mul other k).symm
        _ ≤ position * k := Nat.mul_le_mul_right k hlt
    rw [getElem?_append_left (by rwa [htake]), getElem?_take_of_lt hindex]
  · have hindex : position * k + k ≤ other * k + entry := by
      calc position * k + k = (position + 1) * k := (Nat.succ_mul position k).symm
        _ ≤ other * k := Nat.mul_le_mul_right k hgt
        _ ≤ other * k + entry := Nat.le_add_right _ _
    rw [getElem?_append_right (by omega), htake, getElem?_append_right (by omega),
      getElem?_drop]
    congr 1
    omega

/-- Some positions are written, each with a block of its own. -/
theorem foldl_writeBlock (write : ℕ → Option (List α)) {positions : List ℕ}
    (hwrite : ∀ position ∈ positions, ∀ block, write position = some block →
      block.length = k ∧ (position + 1) * k ≤ array.length) :
    (positions.foldl (fun array position =>
        ((write position).map (writeBlock k array position)).getD array) array).length =
      array.length ∧
    ∀ position, blockAt k (positions.foldl (fun array position =>
        ((write position).map (writeBlock k array position)).getD array) array) position =
      if position ∈ positions then (write position).getD (blockAt k array position)
      else blockAt k array position := by
  induction positions generalizing array with
  | nil => exact ⟨rfl, fun position => (if_neg not_mem_nil).symm⟩
  | cons first positions ih =>
    rw [forall_mem_cons] at hwrite
    rw [foldl_cons]
    cases hfirst : write first with
    | none =>
      obtain ⟨hlength, hblock⟩ := ih hwrite.2
      refine ⟨hlength, fun position => (hblock position).trans ?_⟩
      by_cases heq : position = first
      · rw [heq, if_pos mem_cons_self, hfirst]
        split_ifs <;> rfl
      · simp only [mem_cons, or_iff_right heq]
    | some block =>
      obtain ⟨hk, hfit⟩ := hwrite.1 block hfirst
      have hsize := length_writeBlock hk hfit
      have hrest : ∀ position ∈ positions, ∀ b, write position = some b →
          b.length = k ∧ (position + 1) * k ≤ (writeBlock k array first block).length :=
        fun position hposition b hb => by
          rw [hsize]
          exact hwrite.2 position hposition b hb
      obtain ⟨hlength, hblock⟩ := ih hrest
      refine ⟨hlength.trans hsize, fun position => (hblock position).trans ?_⟩
      by_cases heq : position = first
      · rw [heq, if_pos mem_cons_self, hfirst, blockAt_writeBlock_self hk hfit]
        split_ifs <;> rfl
      · simp only [mem_cons, or_iff_right heq, blockAt_writeBlock_of_ne hk hfit heq]

/-! ### Concatenation -/

theorem length_flatMap_blocks {blocks : List β} {f : β → List α}
    (h : ∀ b ∈ blocks, (f b).length = k) : (blocks.flatMap f).length = blocks.length * k := by
  induction blocks with
  | nil => rw [flatMap_nil, length_nil, length_nil, Nat.zero_mul]
  | cons b blocks ih =>
    rw [forall_mem_cons] at h
    rw [flatMap_cons, length_append, h.1, ih h.2, length_cons, Nat.succ_mul,
      Nat.add_comm]

/-- The blocks of a concatenation are its parts. -/
theorem blockAt_flatMap {blocks : List β} {f : β → List α} (h : ∀ b ∈ blocks, (f b).length = k)
    {position : ℕ} {b : β} (hb : blocks[position]? = some b) :
    blockAt k (blocks.flatMap f) position = f b := by
  induction blocks generalizing position with
  | nil => cases hb
  | cons first blocks ih =>
    rw [forall_mem_cons] at h
    rcases position with _ | position
    · obtain rfl : first = b := Option.some.inj hb
      rw [blockAt, Nat.zero_mul, drop_zero, flatMap_cons, take_left' h.1]
    · have hnext : blockAt k (blocks.flatMap f) position = f b := ih h.2 hb
      have hindex : (position + 1) * k = (f first).length + position * k := by
        rw [h.1]
        ring
      rw [blockAt, flatMap_cons, hindex, drop_length_add_append, ← hnext, blockAt]

end Retrograd.Logic
