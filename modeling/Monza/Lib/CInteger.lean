import Monza.Lib.BitField

/-!
# Integer expressions of C++

Values carry the type they have after promotion. A bit-field of an unsigned type is promoted by
its width: to `int` if `int` has all its values, to `unsigned int` if only that has, and not at
all if it is wider. The operators bring both operands to a common type first, and bringing a
negative `int` to a wider type repeats its sign bit.

Integers are two's complement and a left shift drops the bits that leave the type, as the
standard has it since C++20. `int` has 32 bits; the wider types have 64.
-/

namespace CInteger

/-- The types of promoted operands. -/
inductive IntType where
  | int
  | unsignedInt
  | int64
  | uint64
  deriving DecidableEq, Repr

namespace IntType

def width : IntType → Nat
  | int => 32
  | unsignedInt => 32
  | int64 => 64
  | uint64 => 64

def signed : IntType → Bool
  | int => true
  | unsignedInt => false
  | int64 => true
  | uint64 => false

/-- The usual arithmetic conversions. -/
def common : IntType → IntType → IntType
  | uint64, _ => uint64
  | _, uint64 => uint64
  | int64, _ => int64
  | _, int64 => int64
  | unsignedInt, _ => unsignedInt
  | _, unsignedInt => unsignedInt
  | int, int => int

end IntType

/-- A value with its type. -/
structure Value where
  type : IntType
  bits : BitVec type.width

namespace Value

/-- The bits of the value in `w` bits: the sign is repeated exactly for a signed type. -/
def toBits (v : Value) (w : Nat) : BitVec w :=
  if v.type.signed then v.bits.signExtend w else v.bits.setWidth w

def or (a b : Value) : Value :=
  let type := IntType.common a.type b.type
  ⟨type, a.toBits type.width ||| b.toBits type.width⟩

def shiftLeft (v : Value) (count : Nat) : Value := ⟨v.type, v.bits <<< count⟩

/-- A bit-field of `w` bits whose declared type is unsigned, promoted. -/
def ofBitField {w : Nat} (field : BitVec w) : Value :=
  if w < 32 then ⟨.int, field.setWidth 32⟩
  else if w = 32 then ⟨.unsignedInt, field.setWidth 32⟩
  else ⟨.uint64, field.setWidth 64⟩

/-- A member of type `uint64_t`. -/
def ofUInt64 (member : BitVec 64) : Value := ⟨.uint64, member⟩

section Int

variable {x y : BitVec 32}

theorem ofBitField_of_lt {w : Nat} {field : BitVec w} (h : w < 32) :
    ofBitField field = ⟨.int, field.setWidth 32⟩ := if_pos h

theorem toBits_int : toBits ⟨.int, x⟩ 32 = x := BitVec.signExtend_eq x

theorem toBits_uint64 {z : BitVec 64} : toBits ⟨.uint64, z⟩ 64 = z := BitVec.setWidth_eq z

/-- Two operands of type `int` need no conversion. -/
theorem int_or_int : or ⟨.int, x⟩ ⟨.int, y⟩ = ⟨.int, x ||| y⟩ := by
  change Value.mk .int (toBits ⟨.int, x⟩ 32 ||| toBits ⟨.int, y⟩ 32) = _
  rw [toBits_int, toBits_int]

/-- An `int` beside an unsigned 64-bit operand is widened with its sign. -/
theorem int_or_uint64 {z : BitVec 64} :
    or ⟨.int, x⟩ ⟨.uint64, z⟩ = ⟨.uint64, x.signExtend 64 ||| z⟩ := by
  change Value.mk .uint64 (x.signExtend 64 ||| toBits ⟨.uint64, z⟩ 64) = _
  rw [toBits_uint64]

end Int

end Value

section Widening

variable {w k : Nat} {a : BitVec w}

/-- The low bits of a word widened with their sign, beside the high bits of the same word. -/
theorem getLsbD_signExtend_or_high (positive : 0 < k) {i : Nat} (lt : i < w) :
    ((a.setWidth k).signExtend w ||| (a >>> k) <<< k).getLsbD i =
      if i < k then a.getLsbD i else (a.getLsbD (k - 1) || a.getLsbD i) := by
  have sign : (a.setWidth k).msb = a.getLsbD (k - 1) := by
    rw [BitVec.msb_eq_getLsbD_last, BitVec.getLsbD_setWidth,
      decide_eq_true (Nat.sub_one_lt (Nat.ne_of_gt positive)), Bool.true_and]
  rw [BitVec.getLsbD_or, BitVec.getLsbD_signExtend, BitVec.getLsbD_shiftLeft, sign]
  by_cases low : i < k
  · simp [low, lt]
  · simp [low, lt, BitVec.getLsbD_ushiftRight, Nat.add_sub_of_le (Nat.le_of_not_lt low)]

/-- The sign is right where it is clear or agrees with every high bit. -/
theorem signExtend_or_high_eq_iff (positive : 0 < k) :
    (a.setWidth k).signExtend w ||| (a >>> k) <<< k = a ↔
      a.getLsbD (k - 1) = false ∨ ∀ i, k ≤ i → i < w → a.getLsbD i = true := by
  constructor
  · intro same
    cases sign : a.getLsbD (k - 1) with
    | false => exact Or.inl rfl
    | true =>
      refine Or.inr ?_
      intro i high lt
      rw [← same, getLsbD_signExtend_or_high positive lt, if_neg (Nat.not_lt_of_le high), sign]
      rfl
  · intro right
    apply BitVec.eq_of_getLsbD_eq
    intro i lt
    rw [getLsbD_signExtend_or_high positive lt]
    by_cases low : i < k
    · rw [if_pos low]
    · rw [if_neg low]
      rcases right with clear | set
      · rw [clear, Bool.false_or]
      · rw [set i (Nat.le_of_not_lt low) lt, Bool.or_true]

end Widening

end CInteger
