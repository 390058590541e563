import Mathlib.Data.List.TakeDrop
import Mathlib.Algebra.Group.Nat.Defs

/-!
# Numbers in little-endian bytes

A number in a given number of bytes, the lowest first, and fields of a record cut out of its bytes
by offset and width.
-/

namespace Retrograd.Logic

open List

/-- The lowest `width` bytes of a number, the lowest first. -/
def leBytes : ℕ → ℕ → List UInt8
  | 0, _ => []
  | width + 1, n => UInt8.ofNat n :: leBytes width (n / 256)

/-- The number some bytes stand for. -/
def leNat : List UInt8 → ℕ
  | [] => 0
  | byte :: bytes => byte.toNat + 256 * leNat bytes

@[simp] theorem length_leBytes (width n : ℕ) : (leBytes width n).length = width := by
  induction width generalizing n with
  | zero => rfl
  | succ width ih => rw [leBytes, length_cons, ih]

theorem leNat_lt (bytes : List UInt8) : leNat bytes < 256 ^ bytes.length := by
  induction bytes with
  | nil => exact Nat.one_pos
  | cons byte bytes ih =>
    have hbyte : byte.toNat < 256 := byte.toNat_lt
    rw [leNat, length_cons, Nat.pow_succ]
    omega

/-- What is written is read back, as far as it fits. -/
theorem leNat_leBytes {width n : ℕ} (h : n < 256 ^ width) : leNat (leBytes width n) = n := by
  induction width generalizing n with
  | zero => exact (Nat.lt_one_iff.mp h).symm
  | succ width ih =>
    rw [Nat.pow_succ] at h
    rw [leBytes, leNat, ih (Nat.div_lt_of_lt_mul (Nat.mul_comm .. ▸ h)), UInt8.toNat_ofNat']
    exact Nat.mod_add_div n 256

/-- What is read is written back. -/
theorem leBytes_leNat (bytes : List UInt8) : leBytes bytes.length (leNat bytes) = bytes := by
  induction bytes with
  | nil => rfl
  | cons byte bytes ih =>
    have hbyte : byte.toNat < 256 := byte.toNat_lt
    have hlow : UInt8.ofNat (byte.toNat + 256 * leNat bytes) = byte := by
      rw [← UInt8.toNat_inj, UInt8.toNat_ofNat']
      omega
    have hhigh : (byte.toNat + 256 * leNat bytes) / 256 = leNat bytes := by omega
    rw [length_cons, leNat, leBytes, hlow, hhigh, ih]

/-! ### Fields -/

/-- The bytes of a field. -/
def field {α : Type} (bytes : List α) (offset width : ℕ) : List α := (bytes.drop offset).take width

theorem take_append_field {α : Type} (bytes : List α) (offset width : ℕ) :
    bytes.take offset ++ field bytes offset width = bytes.take (offset + width) :=
  take_add.symm

theorem length_field {α : Type} {bytes : List α} {offset width : ℕ}
    (h : offset + width ≤ bytes.length) : (field bytes offset width).length = width := by
  rw [field, length_take, length_drop]
  omega

theorem leBytes_field {bytes : List UInt8} {offset width : ℕ} (h : offset + width ≤ bytes.length) :
    leBytes width (leNat (field bytes offset width)) = field bytes offset width := by
  have hbytes := leBytes_leNat (field bytes offset width)
  rwa [length_field h] at hbytes

end Retrograd.Logic
