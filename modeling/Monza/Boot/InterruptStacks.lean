import Monza.Gdt
import Monza.Heap
import Monza.Lib.ByteTable
import Monza.Pagetable.Setup

/-!
# The stacks for interrupts

All gates name the first interrupt stack. The processor finds it through the task register: the
register selects a descriptor, the descriptor has the address of a task state segment, and the
segment the address of the stack. `setup_gdt` fills the descriptors, allocates the stacks of all
cores in one block, stores the end of each in the segment of its core and has the block mapped into
all page tables.
-/

namespace Monza

open ByteMemory

def interruptStackSize : Nat := 64 * 1024

/-- The address that the processor takes from a descriptor. -/
def SystemGDTEntry.base (entry : SystemGDTEntry) : Nat :=
  entry.common.baseLow.toNat + 2 ^ 24 * entry.common.baseHigh.toNat +
    2 ^ 32 * (entry.baseHigh.toNat % 2 ^ 32)

/-- The system descriptor that a selector names. -/
def GDT.selected (gdt : GDT) (selector : Nat) : Option SystemGDTEntry :=
  let offset := selector / 8 * 8
  if h : 6 * 8 ≤ offset ∧ (offset - 6 * 8) % 16 = 0 ∧ (offset - 6 * 8) / 16 < maxCoreCount then
    some (gdt.tss ⟨(offset - 6 * 8) / 16, h.2.2⟩)
  else none

/-- What `setup_gdt` leaves: the table, memory with the segments, and the block in the map. -/
structure InterruptSetup where
  gdt : GDT
  memory : Memory
  map : MapEntry

namespace InterruptSetup

/-- The store of one round; the stacks are in `block`. -/
def storeIst1 (perCoreTss : BitVec 64) (block : Nat) (m : Memory) (i : Nat) : Memory :=
  store m (perCoreTss.toNat + taskStateSegmentSize * i + ist1Offset)
    (Bytes.le 8 (u64 (block + (i + 1) * interruptStackSize)))

def allocationSize (ps : PageSize) (numCores : Nat) : Nat :=
  alignUp (numCores * interruptStackSize) ps.bytes

/-- `setup_gdt`, given the block that `early_alloc_zero` answers. -/
def setupGdt (ps : PageSize) (numCores : Nat) (gdt : GDT) (perCoreTss : BitVec 64) (block : Nat)
    (m : Memory) : InterruptSetup where
  gdt := gdt.fillTss perCoreTss
  memory := (List.range numCores).foldl (storeIst1 perCoreTss block) m
  map := ⟨.ofSpan ⟨block, allocationSize ps numCores⟩, .forceKernelWrite⟩

/-- The stack pointer with which the processor enters a gate, by the task register. -/
def stackTop (s : InterruptSetup) (tr : Nat) : Option Nat :=
  (s.gdt.selected tr).map fun entry =>
    Bytes.ofLe (load s.memory (entry.base + ist1Offset) 8)

end InterruptSetup

/-! ### The descriptors -/

theorem GDT.selected_tssSeg (gdt : GDT) (core : Fin maxCoreCount) :
    gdt.selected (tssSeg core) = some (gdt.tss core) := by
  have few := core.isLt
  have offset : tssSeg core / 8 * 8 = 6 * 8 + 16 * core := by
    unfold tssSeg
    omega
  have index : (6 * 8 + 16 * core.val - 6 * 8) / 16 = core := by omega
  simp only [GDT.selected, offset]
  rw [dif_pos ⟨by omega, by omega, by rw [index]; exact few⟩]
  exact congrArg (fun i => some (gdt.tss i)) (Fin.ext index)

/-- The processor puts the address together again, wherever the segment is. -/
theorem SystemGDTEntry.base_storeBase (entry : SystemGDTEntry) (ptr : BitVec 64) :
    (GDT.storeBase entry ptr).base = ptr.toNat := by
  have bound := ptr.isLt
  have high : (GDT.storeBase entry ptr).baseHigh.toNat = ptr.toNat / 2 ^ 32 :=
    BitField.toNat_shift ptr
  rw [SystemGDTEntry.base, GDT.toNat_storeBase_baseLow, GDT.toNat_storeBase_baseHigh, high]
  omega

namespace InterruptSetup

variable {ps : PageSize} {numCores block : Nat} {gdt : GDT} {perCoreTss : BitVec 64} {m : Memory}

/-- The address of a segment does not wrap. -/
theorem toNat_tssPtr (fits : perCoreTss.toNat + taskStateSegmentSize * maxCoreCount ≤ 2 ^ 64)
    (core : Fin maxCoreCount) :
    (GDT.tssPtr perCoreTss core).toNat = perCoreTss.toNat + taskStateSegmentSize * core := by
  have few : core.val < 256 := core.isLt
  have fits : perCoreTss.toNat + 100 * 256 ≤ 2 ^ 64 := fits
  have place : 100 * core.val < 2 ^ 64 := by omega
  have size : taskStateSegmentSize = 100 := rfl
  rw [GDT.tssPtr, BitVec.toNat_add, BitVec.toNat_ofNat, size, Nat.mod_eq_of_lt place,
    Nat.mod_eq_of_lt (by omega)]

/-! ### The stacks -/

/-- The rounds of the loop do not touch each other's words. -/
theorem load_storeIst1 {i : Nat} (before : i < numCores) :
    load ((List.range numCores).foldl (storeIst1 perCoreTss block) m)
        (perCoreTss.toNat + taskStateSegmentSize * i + ist1Offset) 8 =
      Bytes.le 8 (u64 (block + (i + 1) * interruptStackSize)) := by
  induction numCores with
  | zero => exact absurd before (Nat.not_lt_zero i)
  | succ n ih =>
      rw [List.range_succ, List.foldl_append, List.foldl_cons, List.foldl_nil]
      by_cases last : i = n
      · rw [last, storeIst1, load_store_whole (Bytes.length_le _ _)]
      · rw [storeIst1, load_store_above (by unfold taskStateSegmentSize ist1Offset; omega)]
        exact ih (by omega)

theorem le_allocationSize (few : numCores ≤ maxCoreCount) :
    numCores * interruptStackSize ≤ allocationSize ps numCores := by
  have few : numCores ≤ 256 := few
  have page : ps.bytes ≤ 2 ^ 21 := by cases ps <;> decide
  refine le_alignUp (by cases ps <;> decide) ?_
  unfold interruptStackSize
  omega

/-- The end of the stack of a core. -/
def topOf (block core : Nat) : Nat := block + (core + 1) * interruptStackSize

/-- The chain from the task register to the stack. -/
theorem stackTop_setupGdt
    (segments : perCoreTss.toNat + taskStateSegmentSize * maxCoreCount ≤ 2 ^ 64)
    (core : Fin maxCoreCount) (used : core.val < numCores) (fits : topOf block core < 2 ^ 64) :
    (setupGdt ps numCores gdt perCoreTss block m).stackTop (tssSeg core) =
      some (topOf block core) := by
  have descriptor : ((gdt.fillTss perCoreTss).tss core).base =
      perCoreTss.toNat + taskStateSegmentSize * core := by
    rw [GDT.fillTss_tss, SystemGDTEntry.base_storeBase, toNat_tssPtr segments]
  rw [stackTop, GDT.selected_tssSeg, Option.map_some, setupGdt]
  simp only [descriptor, load_storeIst1 used]
  have width : (256 : Nat) ^ 8 = 2 ^ 64 := by decide
  rw [Bytes.ofLe_le, ← topOf, u64_of_lt fits, width, Nat.mod_eq_of_lt fits]

/-- **Every core takes its interrupts on a stack of its own**: through its task register the
processor finds the end of 64 KiB inside of the block that is mapped for the kernel in all page
tables, and no two cores share a byte. -/
theorem interrupt_stacks_are_separate (ps : PageSize) {numCores : Nat}
    (few : numCores ≤ maxCoreCount) (gdt : GDT) {perCoreTss : BitVec 64}
    (segments : perCoreTss.toNat + taskStateSegmentSize * maxCoreCount ≤ 2 ^ 64) {block : Nat}
    (room : block + allocationSize ps numCores < 2 ^ 64) (m : Memory) :
    ∃ top : Fin maxCoreCount → Nat,
      (∀ core, core.val < numCores →
        (setupGdt ps numCores gdt perCoreTss block m).stackTop (tssSeg core) = some (top core) ∧
        (setupGdt ps numCores gdt perCoreTss block m).map.range.start + interruptStackSize ≤
          top core ∧
        top core ≤ (setupGdt ps numCores gdt perCoreTss block m).map.range.stop) ∧
      ∀ core other, core ≠ other →
        top core + interruptStackSize ≤ top other ∨ top other + interruptStackSize ≤ top core := by
  have enough : numCores * interruptStackSize ≤ allocationSize ps numCores :=
    le_allocationSize few
  refine ⟨fun core => topOf block core, fun core used => ?_, fun core other ne => ?_⟩
  · have inside : topOf block core ≤ block + allocationSize ps numCores := by
      have stacked : (core.val + 1) * interruptStackSize ≤ numCores * interruptStackSize :=
        Nat.mul_le_mul_right interruptStackSize used
      unfold topOf
      omega
    have range : (setupGdt ps numCores gdt perCoreTss block m).map.range =
        ⟨block, block + allocationSize ps numCores⟩ := by
      rw [setupGdt, AddressRange.ofSpan, u64_of_lt room]
    refine ⟨stackTop_setupGdt segments core used (by omega), ?_, ?_⟩
    · simp only [range, topOf, Nat.add_mul]
      omega
    · rw [range]
      exact inside
  · have apart : core.val ≠ other.val := fun same => ne (Fin.ext same)
    simp only [topOf, interruptStackSize]
    omega

theorem interrupt_stacks_are_separate_sample :
    ∃ top : Fin maxCoreCount → Nat,
      (setupGdt .kib4 2 .initial 0x80000000#64 0x900000 fun _ => 0).stackTop
          (tssSeg ⟨1, by decide⟩) = some (top ⟨1, by decide⟩) ∧
      (top ⟨0, by decide⟩ + interruptStackSize ≤ top ⟨1, by decide⟩ ∨
        top ⟨1, by decide⟩ + interruptStackSize ≤ top ⟨0, by decide⟩) := by
  obtain ⟨top, found, apart⟩ := interrupt_stacks_are_separate .kib4
    (show 2 ≤ maxCoreCount by decide) .initial
    (show (0x80000000#64).toNat + taskStateSegmentSize * maxCoreCount ≤ 2 ^ 64 by decide)
    (show 0x900000 + allocationSize .kib4 2 < 2 ^ 64 by decide) fun _ => 0
  exact ⟨top, (found ⟨1, by decide⟩ (by decide)).1, apart _ _ (by decide)⟩

end InterruptSetup

end Monza
