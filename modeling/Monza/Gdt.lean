import Monza.Lib.CInteger
import Mathlib.Data.List.FinRange

/-!
# Task segments of the global descriptor table

A system descriptor splits the address of its segment into fields of 24, 8 and 64 bits, of which
the last holds the upper half of the address. `fill_tss` stores the addresses of the task state
segments of all cores. Two constructors, one for Hyper-V and one for the VMCB of SEV, put the
fields together again.

The expressions of the constructors are written with the types that C++ gives to bit-fields. The
8 bits in the middle are promoted to `int` before they are shifted, so bit 31 of an address becomes
a sign. The table's other descriptors are not modelled; they only determine the offset of the
first system descriptor.
-/

namespace Monza

open CInteger

structure SegmentAttributes where
  segmentType : BitVec 4
  userSegment : BitVec 1
  descriptorPrivilegeLevel : BitVec 2
  present : BitVec 1
  limitHigh : BitVec 4
  available : BitVec 1
  longMode : BitVec 1
  protectedMode : BitVec 1
  granularity : BitVec 1
  deriving DecidableEq, Repr

structure UserGDTEntry where
  limitLow : BitVec 16
  baseLow : BitVec 24
  attributes : SegmentAttributes
  baseHigh : BitVec 8
  deriving DecidableEq, Repr

structure SystemGDTEntry where
  common : UserGDTEntry
  baseHigh : BitVec 64
  deriving DecidableEq, Repr

/-- `offsetof(TaskStateSegment, ist1)`; the structure is packed. -/
def ist1Offset : Nat := 4 + 3 * 8 + 8

/-- `sizeof(TaskStateSegment)`: 100 bytes, where the segment of the architecture has 104. -/
def taskStateSegmentSize : Nat := ist1Offset + 7 * 8 + 3 * 2 + 2

def maxCoreCount : Nat := 256

/-- The core that boots. -/
def bootCore : Fin maxCoreCount := ⟨0, by decide⟩

/-- `TssSegment64Initial`. -/
def tssSegment64Initial : SystemGDTEntry where
  common :=
    { limitLow := BitVec.ofNat 16 (taskStateSegmentSize - 1)
      baseLow := 0
      attributes :=
        { segmentType := 0b1001
          userSegment := 0
          descriptorPrivilegeLevel := 3
          present := 1
          limitHigh := 0
          available := 0
          longMode := 1
          protectedMode := 0
          granularity := 0 }
      baseHigh := 0 }
  baseHigh := 0

/-- The 20 bits of a limit that a descriptor stores. -/
def SystemGDTEntry.limit (entry : SystemGDTEntry) : BitVec 20 :=
  entry.common.attributes.limitHigh ++ entry.common.limitLow

/-- The system descriptors of the table. -/
structure GDT where
  tss : Fin maxCoreCount → SystemGDTEntry

namespace GDT

/-- The table as it is built. -/
def initial : GDT := ⟨fun _ => tssSegment64Initial⟩

/-- `offsetof(GDT, tss)` and the descriptors before `core`. -/
def tssOffset (core : Fin maxCoreCount) : BitVec 64 := BitVec.ofNat 64 (6 * 8 + 16 * core)

/-- The address of an element of `per_core_tss`. -/
def tssPtr (perCoreTss : BitVec 64) (core : Fin maxCoreCount) : BitVec 64 :=
  perCoreTss + BitVec.ofNat 64 (taskStateSegmentSize * core)

/-- The three assignments of one iteration of `fill_tss`. -/
def storeBase (entry : SystemGDTEntry) (ptr : BitVec 64) : SystemGDTEntry :=
  { entry with
    common :=
      { entry.common with
        baseLow := (ptr &&& 0xFFFFFF#64).setWidth 24
        baseHigh := (ptr >>> 24 &&& 0xFF#64).setWidth 8 }
    baseHigh := ptr >>> 32 }

def fillTss (gdt : GDT) (perCoreTss : BitVec 64) : GDT :=
  (List.finRange maxCoreCount).foldl
    (fun gdt core =>
      ⟨Function.update gdt.tss core (storeBase (gdt.tss core) (tssPtr perCoreTss core))⟩)
    gdt

end GDT

namespace SystemGDTEntry

/-- `common.base_low | common.base_high << 24 | base_high << 32`. -/
def decodedBase (entry : SystemGDTEntry) : BitVec 64 :=
  (((Value.ofBitField entry.common.baseLow).or
    ((Value.ofBitField entry.common.baseHigh).shiftLeft 24)).or
    ((Value.ofUInt64 entry.baseHigh).shiftLeft 32)).toBits 64

/-- `common.limit_low | common.attributes.limit_high << 16`. -/
def decodedLimit (entry : SystemGDTEntry) : BitVec 32 :=
  ((Value.ofBitField entry.common.limitLow).or
    ((Value.ofBitField entry.common.attributes.limitHigh).shiftLeft 16)).toBits 32

/-- `pointer_diff(&gdt, &gdt_entry) | common.attributes.descriptor_privilege_level`. -/
def decodedSelector (entry : SystemGDTEntry) (pointerDiff : BitVec 64) : BitVec 16 :=
  ((Value.ofUInt64 pointerDiff).or
    (Value.ofBitField entry.common.attributes.descriptorPrivilegeLevel)).toBits 16

end SystemGDTEntry

/-- The segment register of Hyper-V. -/
structure SegmentRegister where
  base : BitVec 64
  limit : BitVec 32
  selector : BitVec 16
  attributes : SegmentAttributes
  deriving DecidableEq, Repr

/-- The constructor from a descriptor, which lies `pointerDiff` bytes behind the table's start. -/
def SegmentRegister.ofEntry (pointerDiff : BitVec 64) (entry : SystemGDTEntry) :
    SegmentRegister where
  base := entry.decodedBase
  limit := entry.decodedLimit
  selector := entry.decodedSelector pointerDiff
  attributes := entry.common.attributes

/-- The selector of AMD's save area. -/
structure SevVmcbSelector where
  selector : BitVec 16
  attrib : SegmentAttributes
  limit : BitVec 32
  base : BitVec 64
  deriving DecidableEq, Repr

@[inherit_doc SegmentRegister.ofEntry]
def SevVmcbSelector.ofEntry (pointerDiff : BitVec 64) (entry : SystemGDTEntry) :
    SevVmcbSelector where
  base := entry.decodedBase
  limit := entry.decodedLimit
  selector := entry.decodedSelector pointerDiff
  attrib := entry.common.attributes

namespace GDT

variable {gdt : GDT} {perCoreTss ptr : BitVec 64} {entry : SystemGDTEntry}

/-- The part of the loop over `cores` stores each address once. -/
theorem tss_foldl {cores : List (Fin maxCoreCount)} (nodup : cores.Nodup) (gdt : GDT)
    (core : Fin maxCoreCount) :
    (cores.foldl (fun gdt core =>
      (⟨Function.update gdt.tss core (storeBase (gdt.tss core) (tssPtr perCoreTss core))⟩ : GDT))
      gdt).tss core =
      if core ∈ cores then storeBase (gdt.tss core) (tssPtr perCoreTss core) else gdt.tss core := by
  induction cores generalizing gdt with
  | nil => simp
  | cons first rest ih =>
    obtain ⟨fresh, nodup⟩ := List.nodup_cons.mp nodup
    rw [List.foldl_cons, ih nodup]
    by_cases same : core = first
    · subst same
      simp [fresh]
    · simp [same]

theorem fillTss_tss (core : Fin maxCoreCount) :
    (gdt.fillTss perCoreTss).tss core =
      storeBase (gdt.tss core) (tssPtr perCoreTss core) := by
  rw [fillTss, tss_foldl (List.nodup_finRange _), if_pos (List.mem_finRange core)]

end GDT

namespace SystemGDTEntry

variable {entry : SystemGDTEntry}

/-- The two lower fields are of type `int` when the upper one is added. -/
theorem decodedBase_eq : entry.decodedBase =
    (entry.common.baseLow.setWidth 32 ||| entry.common.baseHigh.setWidth 32 <<< 24).signExtend 64
      ||| entry.baseHigh <<< 32 := by
  have low : Value.ofBitField entry.common.baseLow =
      ⟨.int, entry.common.baseLow.setWidth 32⟩ := Value.ofBitField_of_lt (by decide)
  have middle : (Value.ofBitField entry.common.baseHigh).shiftLeft 24 =
      ⟨.int, entry.common.baseHigh.setWidth 32 <<< 24⟩ := by
    rw [Value.ofBitField_of_lt (by decide)]
    rfl
  have high : (Value.ofUInt64 entry.baseHigh).shiftLeft 32 = ⟨.uint64, entry.baseHigh <<< 32⟩ := rfl
  rw [decodedBase, low, middle, high, Value.int_or_int, Value.int_or_uint64]
  exact Value.toBits_uint64

/-- A limit fits in `int`, so its parts never reach the sign. -/
theorem decodedLimit_eq : entry.decodedLimit = entry.limit.setWidth 32 := by
  have low : Value.ofBitField entry.common.limitLow =
      ⟨.int, entry.common.limitLow.setWidth 32⟩ := Value.ofBitField_of_lt (by decide)
  have high : (Value.ofBitField entry.common.attributes.limitHigh).shiftLeft 16 =
      ⟨.int, entry.common.attributes.limitHigh.setWidth 32 <<< 16⟩ := by
    rw [Value.ofBitField_of_lt (by decide)]
    rfl
  rw [decodedLimit, low, high, Value.int_or_int, Value.toBits_int]
  apply BitVec.eq_of_toNat_eq
  have small := entry.common.limitLow.isLt
  have few := entry.common.attributes.limitHigh.isLt
  have lowNat : (entry.common.limitLow.setWidth 32).toNat = entry.common.limitLow.toNat := by
    rw [BitVec.toNat_setWidth, Nat.mod_eq_of_lt (by omega)]
  have highNat : (entry.common.attributes.limitHigh.setWidth 32).toNat =
      entry.common.attributes.limitHigh.toNat := by
    rw [BitVec.toNat_setWidth, Nat.mod_eq_of_lt (by omega)]
  rw [BitField.toNat_pack (by omega) (by omega), lowNat, highNat, BitVec.toNat_setWidth, limit,
    BitVec.toNat_append, ← Nat.shiftLeft_add_eq_or_of_lt small, Nat.shiftLeft_eq]
  omega

end SystemGDTEntry

namespace GDT

theorem toNat_storeBase_baseLow :
    (storeBase entry ptr).common.baseLow.toNat = ptr.toNat % 2 ^ 24 := by
  have mask : 0xFFFFFF#64 = BitVec.ofNat 64 (2 ^ 24 - 1) := by decide
  have field : (storeBase entry ptr).common.baseLow = (ptr &&& 0xFFFFFF#64).setWidth 24 := rfl
  rw [field, mask, BitVec.toNat_setWidth, BitField.toNat_mask _ (by decide), Nat.mod_mod]

theorem toNat_storeBase_baseHigh :
    (storeBase entry ptr).common.baseHigh.toNat = ptr.toNat / 2 ^ 24 % 2 ^ 8 := by
  have mask : 0xFF#64 = BitVec.ofNat 64 (2 ^ 8 - 1) := by decide
  have field : (storeBase entry ptr).common.baseHigh = (ptr >>> 24 &&& 0xFF#64).setWidth 8 := rfl
  rw [field, mask, BitVec.toNat_setWidth, BitField.toNat_mask _ (by decide), BitField.toNat_shift,
    Nat.mod_mod]

/-- The two lower fields are the lower half of the address. -/
theorem storeBase_low : (storeBase entry ptr).common.baseLow.setWidth 32 |||
    (storeBase entry ptr).common.baseHigh.setWidth 32 <<< 24 = ptr.setWidth 32 := by
  have low : ((storeBase entry ptr).common.baseLow.setWidth 32).toNat = ptr.toNat % 2 ^ 24 := by
    rw [BitVec.toNat_setWidth, toNat_storeBase_baseLow]
    omega
  have high : ((storeBase entry ptr).common.baseHigh.setWidth 32).toNat =
      ptr.toNat / 2 ^ 24 % 2 ^ 8 := by
    rw [BitVec.toNat_setWidth, toNat_storeBase_baseHigh]
    omega
  apply BitVec.eq_of_toNat_eq
  rw [BitField.toNat_pack (by omega) (by omega), low, high, BitVec.toNat_setWidth]
  omega

/-- Only bit 31 can go wrong, and only if the bits above it differ from it. -/
theorem decodedBase_storeBase_eq_iff (entry : SystemGDTEntry) (ptr : BitVec 64) :
    (storeBase entry ptr).decodedBase = ptr ↔
    ptr.getLsbD 31 = false ∨ ∀ i, 32 ≤ i → i < 64 → ptr.getLsbD i = true := by
  have high : (storeBase entry ptr).baseHigh = ptr >>> 32 := rfl
  rw [SystemGDTEntry.decodedBase_eq, storeBase_low, high]
  exact signExtend_or_high_eq_iff (by decide)

end GDT

/-- `TSS_SEG`, the selector that is loaded for the task segment of a core. -/
def tssSeg (core : Fin maxCoreCount) : Nat := 6 * 8 + 16 * core + 0x3

/-- Both constructors give back what `fill_tss` has stored exactly for the addresses whose bit 31
is clear or that are at the top of the address space. -/
theorem task_segments_round_trip_iff (gdt : GDT) (perCoreTss : BitVec 64)
    (core : Fin maxCoreCount) :
    ((SegmentRegister.ofEntry (GDT.tssOffset core) ((gdt.fillTss perCoreTss).tss core)).base =
        GDT.tssPtr perCoreTss core ∧
      (SegmentRegister.ofEntry (GDT.tssOffset core) ((gdt.fillTss perCoreTss).tss core)).limit =
        (gdt.tss core).limit.setWidth 32 ∧
      (SevVmcbSelector.ofEntry (GDT.tssOffset core) ((gdt.fillTss perCoreTss).tss core)).base =
        GDT.tssPtr perCoreTss core ∧
      (SevVmcbSelector.ofEntry (GDT.tssOffset core) ((gdt.fillTss perCoreTss).tss core)).limit =
        (gdt.tss core).limit.setWidth 32) ↔
      (GDT.tssPtr perCoreTss core).getLsbD 31 = false ∨
        ∀ i, 32 ≤ i → i < 64 → (GDT.tssPtr perCoreTss core).getLsbD i = true := by
  rw [GDT.fillTss_tss]
  have limit : (GDT.storeBase (gdt.tss core) (GDT.tssPtr perCoreTss core)).decodedLimit =
      (gdt.tss core).limit.setWidth 32 := SystemGDTEntry.decodedLimit_eq
  constructor
  · rintro ⟨base, -⟩
    exact (GDT.decodedBase_storeBase_eq_iff _ _).mp base
  · intro right
    have base := (GDT.decodedBase_storeBase_eq_iff (gdt.tss core) _).mpr right
    exact ⟨base, limit, base, limit⟩

/-- A table of task state segments at 2 GiB: the register's base has all upper bits set. -/
theorem task_segment_at_two_gib :
    (SegmentRegister.ofEntry (GDT.tssOffset bootCore)
      ((GDT.initial.fillTss 0x80000000#64).tss bootCore)).base = 0xFFFFFFFF80000000#64 ∧
    (SevVmcbSelector.ofEntry (GDT.tssOffset bootCore)
      ((GDT.initial.fillTss 0x80000000#64).tss bootCore)).base = 0xFFFFFFFF80000000#64 ∧
    GDT.tssPtr 0x80000000#64 bootCore = 0x80000000#64 := by
  rw [GDT.fillTss_tss]
  decide

end Monza
