import Retrograd.Logic.LittleEndian

/-!
# Fields written into a record

A field that is written reads back, and the fields beside it stay as they were.
-/

namespace Retrograd.Logic

open List

variable {α : Type} {bytes new : List α} {offset offset' width : ℕ}

/-- A record with some bytes copied over it. -/
def overwrite (bytes : List α) (offset : ℕ) (new : List α) : List α :=
  bytes.take offset ++ new ++ bytes.drop (offset + new.length)

theorem length_overwrite (h : offset + new.length ≤ bytes.length) :
    (overwrite bytes offset new).length = bytes.length := by
  rw [overwrite, length_append, length_append, length_take, length_drop]
  omega

theorem getElem?_overwrite (h : offset + new.length ≤ bytes.length) (i : ℕ) :
    (overwrite bytes offset new)[i]? =
      if offset ≤ i ∧ i < offset + new.length then new[i - offset]? else bytes[i]? := by
  have htake : (bytes.take offset).length = offset := length_take_of_le (by omega)
  rw [overwrite]
  by_cases hbelow : i < offset
  · rw [if_neg (by omega), append_assoc, getElem?_append_left (by omega),
      getElem?_take_of_lt hbelow]
  · rw [append_assoc, getElem?_append_right (by omega), htake]
    by_cases hnew : i < offset + new.length
    · rw [if_pos ⟨by omega, hnew⟩, getElem?_append_left (by omega)]
    · rw [if_neg (by omega), getElem?_append_right (by omega), getElem?_drop]
      congr 1
      omega

theorem getElem?_field (bytes : List α) (offset width i : ℕ) :
    (field bytes offset width)[i]? = if i < width then bytes[offset + i]? else none := by
  rw [field, getElem?_take, getElem?_drop]

/-- What is written reads back. -/
theorem field_overwrite (h : offset + new.length ≤ bytes.length) :
    field (overwrite bytes offset new) offset new.length = new := by
  refine ext_getElem? fun i => ?_
  rw [getElem?_field, getElem?_overwrite h]
  split_ifs with hi hwritten
  · rw [Nat.add_sub_cancel_left]
  · omega
  · exact (getElem?_eq_none (by omega)).symm

/-- A field beside the one that is written stays. -/
theorem field_overwrite_beside (h : offset + new.length ≤ bytes.length)
    (hbeside : offset' + width ≤ offset ∨ offset + new.length ≤ offset') :
    field (overwrite bytes offset new) offset' width = field bytes offset' width := by
  refine ext_getElem? fun i => ?_
  rw [getElem?_field, getElem?_field, getElem?_overwrite h]
  split_ifs with hi hwritten
  · omega
  · rfl
  · rfl

end Retrograd.Logic
