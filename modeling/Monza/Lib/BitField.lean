import Mathlib.Data.Nat.Bitwise
import Mathlib.Logic.Function.Basic

/-!
# Fields of machine words

A word that is put together from a low part and a shifted high part, without an overlap, is the
number with these parts as digits; a mask and a shift give the parts back. All statements are
about the number, so what is left of them is division with remainder.

The second part is about bitmaps that are stored in bytes, of which single bits are set.
-/

namespace BitField

variable {w k : Nat}

/-- The low and the high part as digits of one number. -/
theorem toNat_pack {low high : BitVec w} (fits : low.toNat < 2 ^ k)
    (room : high.toNat * 2 ^ k < 2 ^ w) :
    (low ||| high <<< k).toNat = high.toNat * 2 ^ k + low.toNat := by
  rw [BitVec.toNat_or, BitVec.toNat_shiftLeft, Nat.shiftLeft_eq, Nat.mod_eq_of_lt room,
    ← Nat.shiftLeft_eq, Nat.or_comm, ← Nat.shiftLeft_add_eq_or_of_lt fits]

/-- A mask keeps the remainder. -/
theorem toNat_mask (x : BitVec w) (le : k ≤ w) :
    (x &&& BitVec.ofNat w (2 ^ k - 1)).toNat = x.toNat % 2 ^ k := by
  have small : 2 ^ k - 1 < 2 ^ w :=
    Nat.lt_of_lt_of_le (Nat.sub_one_lt (Nat.ne_of_gt (Nat.two_pow_pos k)))
      (Nat.pow_le_pow_right (by decide) le)
  rw [BitVec.toNat_and, BitVec.toNat_ofNat, Nat.mod_eq_of_lt small,
    Nat.and_two_pow_sub_one_eq_mod]

/-- A shift keeps the quotient. -/
theorem toNat_shift (x : BitVec w) : (x >>> k).toNat = x.toNat / 2 ^ k := by
  rw [BitVec.toNat_ushiftRight, Nat.shiftRight_eq_div_pow]

variable {low high : BitVec w}

theorem mask_pack (le : k ≤ w) (fits : low.toNat < 2 ^ k) (room : high.toNat * 2 ^ k < 2 ^ w) :
    (low ||| high <<< k) &&& BitVec.ofNat w (2 ^ k - 1) = low := by
  apply BitVec.eq_of_toNat_eq
  rw [toNat_mask _ le, toNat_pack fits room, Nat.mul_add_mod_self_right, Nat.mod_eq_of_lt fits]

theorem shift_pack (fits : low.toNat < 2 ^ k) (room : high.toNat * 2 ^ k < 2 ^ w) :
    (low ||| high <<< k) >>> k = high := by
  apply BitVec.eq_of_toNat_eq
  rw [toNat_shift, toNat_pack fits room, Nat.add_comm,
    Nat.add_mul_div_right _ _ (Nat.two_pow_pos k), Nat.div_eq_of_lt fits, Nat.zero_add]

section Bitmap

variable {n : Nat}

/-- The byte of a bit. -/
def byteOf (i : Fin (8 * n)) : Fin n := ⟨i / 8, Nat.div_lt_of_lt_mul i.isLt⟩

def bit (bytes : Fin n → BitVec 8) (i : Fin (8 * n)) : Bool := (bytes (byteOf i)).getLsbD (i % 8)

def setBit (bytes : Fin n → BitVec 8) (i : Fin (8 * n)) : Fin n → BitVec 8 :=
  Function.update bytes (byteOf i) (bytes (byteOf i) ||| 1#8 <<< (i.val % 8))

theorem getLsbD_one_shift {a b : Nat} (lt : a < 8) :
    (1#8 <<< b).getLsbD a = decide (a = b) := by
  rw [BitVec.getLsbD_shiftLeft, BitVec.getLsbD_one, Bool.eq_iff_iff]
  simp only [lt, decide_true, Bool.true_and, Bool.and_eq_true, Bool.not_eq_true',
    decide_eq_false_iff_not, decide_eq_true_eq]
  omega

/-- A bit is named by its byte and its place in there. -/
theorem eq_of_byteOf {i j : Fin (8 * n)} (byte : byteOf i = byteOf j)
    (place : i.val % 8 = j.val % 8) : i = j := by
  have quotient : i.val / 8 = j.val / 8 := congrArg Fin.val byte
  apply Fin.ext
  rw [← Nat.div_add_mod i.val 8, quotient, place, Nat.div_add_mod]

theorem bit_setBit (bytes : Fin n → BitVec 8) (i j : Fin (8 * n)) :
    bit (setBit bytes j) i = (bit bytes i || decide (i = j)) := by
  have place : i.val % 8 < 8 := Nat.mod_lt _ (by decide)
  by_cases byte : byteOf i = byteOf j
  · rw [bit, setBit, byte, Function.update_self, BitVec.getLsbD_or, getLsbD_one_shift place, bit,
      byte]
    congr 1
    exact decide_eq_decide.mpr ⟨eq_of_byteOf byte, fun same => congrArg (·.val % 8) same⟩
  · have other : i ≠ j := fun same => byte (congrArg byteOf same)
    rw [bit, setBit, Function.update_of_ne byte, decide_eq_false other, Bool.or_false, bit]

theorem bit_foldl_setBit {ι : Type} (index : ι → Fin (8 * n)) (i : Fin (8 * n)) :
    ∀ (l : List ι) (bytes : Fin n → BitVec 8),
      bit (l.foldl (fun b x => setBit b (index x)) bytes) i = true ↔
        bit bytes i = true ∨ ∃ x ∈ l, index x = i
  | [], bytes => by simp
  | x :: l, bytes => by
      rw [List.foldl_cons, bit_foldl_setBit index i l, bit_setBit, Bool.or_eq_true,
        decide_eq_true_eq, or_assoc, eq_comm (a := i)]
      simp only [List.mem_cons, or_and_right, exists_or, exists_eq_left]

/-- Bitmaps with the same bits are equal. -/
theorem bitmap_ext {bytes bytes' : Fin n → BitVec 8} (same : ∀ i, bit bytes i = bit bytes' i) :
    bytes = bytes' := by
  funext byte
  apply BitVec.eq_of_getLsbD_eq
  intro place lt
  have here := same ⟨8 * byte.val + place, by omega⟩
  have quotient : (8 * byte.val + place) / 8 = byte.val := by omega
  have remainder : (8 * byte.val + place) % 8 = place := by omega
  simpa only [bit, byteOf, quotient, remainder] using here

end Bitmap

end BitField
