import Mathlib.Data.UInt
import Mathlib.Data.List.Basic
import Mathlib.Tactic.Ring

/-!
# Byte layouts

Little-endian numbers of a fixed width and slices of byte strings. A record that is laid
out by concatenation is read back field by field: a slice that starts behind a field
skips it, and a slice that ends within one does not look further.
-/

abbrev Bytes := List UInt8

namespace Bytes

/-- The lowest `width` bytes of a number, least significant first. -/
def le : Nat → Nat → Bytes
  | 0, _ => []
  | width + 1, n => UInt8.ofNat n :: le width (n / 256)

def ofLe : Bytes → Nat
  | [] => 0
  | b :: bs => b.toNat + 256 * ofLe bs

def zeros (length : Nat) : Bytes := List.replicate length 0

def slice (offset length : Nat) (bs : Bytes) : Bytes := (bs.drop offset).take length

@[simp] theorem length_le (width n : Nat) : (le width n).length = width := by
  induction width generalizing n with
  | zero => rfl
  | succ width ih => rw [le, List.length_cons, ih]

@[simp] theorem length_zeros (length : Nat) : (zeros length).length = length :=
  List.length_replicate

theorem ofLe_le (width n : Nat) : ofLe (le width n) = n % 256 ^ width := by
  induction width generalizing n with
  | zero => rw [le, ofLe, Nat.pow_zero, Nat.mod_one]
  | succ width ih =>
      have low : (UInt8.ofNat n).toNat = n % 256 := UInt8.toNat_ofNat'
      rw [le, ofLe, ih, low, Nat.pow_succ', Nat.mod_mul]

theorem ofLe_lt (bs : Bytes) : ofLe bs < 256 ^ bs.length := by
  induction bs with
  | nil => exact Nat.one_pos
  | cons b bs ih =>
      have := b.toNat_lt
      rw [ofLe, List.length_cons, Nat.pow_succ]
      omega

theorem le_ofLe {bs : Bytes} {width : Nat} (whole : bs.length = width) :
    le width (ofLe bs) = bs := by
  induction bs generalizing width with
  | nil =>
      subst whole
      rfl
  | cons b bs ih =>
      subst whole
      have small := b.toNat_lt
      have low : UInt8.ofNat (b.toNat + 256 * ofLe bs) = b := by
        apply UInt8.toNat_inj.mp
        rw [UInt8.toNat_ofNat']
        omega
      have high : (b.toNat + 256 * ofLe bs) / 256 = ofLe bs := by omega
      rw [List.length_cons, ofLe, le, low, high, ih rfl]

section Slice

variable {a b : Bytes} {offset length : Nat}

theorem slice_append_right (skip : a.length ≤ offset) :
    slice offset length (a ++ b) = slice (offset - a.length) length b := by
  rw [slice, slice, List.drop_append, List.drop_eq_nil_of_le skip, List.nil_append]

theorem slice_append_left (inside : offset + length ≤ a.length) :
    slice offset length (a ++ b) = slice offset length a := by
  have enough : length ≤ (a.drop offset).length := by
    rw [List.length_drop]
    omega
  rw [slice, slice, List.drop_append_of_le_length (by omega), List.take_append_of_le_length enough]

theorem slice_zero_length (a : Bytes) : slice 0 a.length a = a := List.take_length

theorem slice_slice {start width : Nat} (inside : offset + length ≤ width) :
    slice offset length (slice start width a) = slice (start + offset) length a := by
  rw [slice, slice, slice, List.drop_take, List.take_take, List.drop_drop,
    Nat.min_eq_left (by omega)]

theorem length_slice (inside : offset + length ≤ a.length) :
    (slice offset length a).length = length := by
  rw [slice, List.length_take, List.length_drop]
  omega

end Slice

end Bytes
