import Monza.Lib.ByteMemory
import Monza.Machine

/-!
# Thread-local storage

A block of thread-local storage holds a copy of the section `.tdata`, the zeros of `.tbss` and
the control block of the thread, to which the base register points. The code that uses a
thread-local variable subtracts a displacement from the register, which the linker has computed
from the segment of the two sections. `tls.cc` computes the size of the block from the ends of
`.tdata` and the size of `.tbss`, with two separate round-ups.

The sections may start and end anywhere and may be empty. The only assumption on the block is that
it ends within the address space.
-/

namespace Monza.Tls

open ByteMemory

/-- The symbols of the linker script: the ends of `.tdata` and the size of `.tbss`. -/
structure Layout where
  tdataStart : Nat
  tdataEnd : Nat
  tbssSize : Nat
  ordered : tdataStart ≤ tdataEnd
  word : tdataEnd < 2 ^ 64

def tbssAlignment : Nat := 4096

section Words

variable {a b : Nat}

theorem sub64_u64 (hb : b < 2 ^ 64) (le : b ≤ a) (lt : a - b < 2 ^ 64) :
    sub64 (u64 a) b = a - b := by
  unfold sub64 u64
  omega

theorem u64_add_sub64 (a : Nat) (lt : b < 2 ^ 64) : u64 (b + sub64 (u64 a) b) = u64 a := by
  unfold sub64 u64
  omega

/-- The boundaries divide the address space, so a round-up may wrap as well as its argument. -/
theorem alignUp_u64 (a : Nat) :
    alignUp (u64 a) tbssAlignment = u64 ((a + 4095) / 4096 * 4096) := by
  unfold alignUp u64 tbssAlignment
  omega

theorem u64_add_boundary (k n : Nat) :
    u64 ((u64 (k * 4096) + n + 4095) / 4096 * 4096) =
      u64 (k * 4096 + (n + 4095) / 4096 * 4096) := by
  unfold u64
  omega

end Words

/-- `sizeof(TCB)`, four pointers. -/
def sizeofTcb : Nat := 32

section Code

variable (L : Layout)

def getInitializedTlsSize : Nat := sub64 L.tdataEnd L.tdataStart

def getInitializedTlsStart : Nat := L.tdataStart

def getUninitializedTlsSize : Nat := L.tbssSize

def getUninitializedTlsOffset : Nat := sub64 (alignUp L.tdataEnd tbssAlignment) L.tdataStart

def getTlsSize : Nat := u64 (alignedSize tbssAlignment L.tbssSize + getUninitializedTlsOffset L)

def getTlsAllocSize : Nat := u64 (getTlsSize L + sizeofTcb)

/-- The base of the new block, and the memory with the block filled. -/
def initializeTls (compartment tlsAllocBase stackLimitLow stackLimitHigh : Nat) (m : Memory) :
    Nat × Memory :=
  let m := copy m tlsAllocBase (getInitializedTlsStart L) (getInitializedTlsSize L)
  let totalSize := getTlsSize L
  let m := fill m (u64 (tlsAllocBase + getUninitializedTlsOffset L)) 0 (getUninitializedTlsSize L)
  let tlsBase := u64 (tlsAllocBase + totalSize)
  let m := store m tlsBase (Bytes.le 8 tlsBase)
  let m := store m (tlsBase + 8) (Bytes.le 8 stackLimitLow)
  let m := store m (tlsBase + 8 + 8) (Bytes.le 8 stackLimitHigh)
  let m := store m (tlsBase + 8 + 8 + 8) (Bytes.le 8 compartment)
  (tlsBase, m)

/-- The fields of the control block, in memory. -/
def controlBlock (selfPtr stackLimitLow stackLimitHigh compartment : Nat) : Bytes :=
  Bytes.le 8 selfPtr ++ Bytes.le 8 stackLimitLow ++ Bytes.le 8 stackLimitHigh ++
    Bytes.le 8 compartment

/-- The pointer that `free_tls` frees. -/
def freeTls (tls : Nat) : Nat := sub64 tls (getTlsSize L)

end Code

theorem length_controlBlock (selfPtr low high compartment : Nat) :
    (controlBlock selfPtr low high compartment).length = sizeofTcb := by
  simp [controlBlock, sizeofTcb]

theorem store_controlBlock (m : Memory) (address selfPtr low high compartment : Nat) :
    store (store (store (store m address (Bytes.le 8 selfPtr)) (address + 8) (Bytes.le 8 low))
      (address + 8 + 8) (Bytes.le 8 high)) (address + 8 + 8 + 8) (Bytes.le 8 compartment) =
      store m address (controlBlock selfPtr low high compartment) := by
  rw [store_store (by rw [Bytes.length_le]), store_store (by rw [Bytes.length_le]),
    store_store (by rw [Bytes.length_le]), controlBlock, List.append_assoc, List.append_assoc]

/-! ### What the linker computes -/

namespace Layout

variable (L : Layout)

/-- The segment starts with `.tdata` and ends with `.tbss`, which starts at the next boundary.
An empty `.tbss` may be left out of it. -/
def IsSegmentSize (size : Nat) : Prop :=
  size = sub64 (u64 (alignUp L.tdataEnd tbssAlignment + L.tbssSize)) L.tdataStart ∨
    L.tbssSize = 0 ∧ size = sub64 L.tdataEnd L.tdataStart

/-- The displacement of the local-exec model for a segment of `size` bytes. -/
def displacement (size : Nat) : Nat :=
  sub64 (alignUp (u64 (L.tdataStart + size)) tbssAlignment) L.tdataStart

/-! ### The sizes without wrapping -/

/-- The distance between the starts of the sections. -/
def offset : Nat := (L.tdataEnd + 4095) / 4096 * 4096 - L.tdataStart

/-- Both sections with their round-ups. -/
def size : Nat := L.offset + (L.tbssSize + 4095) / 4096 * 4096

/-- The control block included. -/
def extent : Nat := L.size + sizeofTcb

/-- The initial value of a byte of the segment; the bytes between the sections have none. -/
def initialByte (m : Memory) (x : Nat) : Option UInt8 :=
  if x < L.tdataEnd - L.tdataStart then some (m (L.tdataStart + x))
  else if L.offset ≤ x ∧ x < L.offset + L.tbssSize then some 0
  else none

variable {L}

theorem tdata_le_offset : L.tdataEnd - L.tdataStart ≤ L.offset := by
  have := L.ordered
  rw [offset]
  omega

theorem offset_add_tbss_le : L.offset + L.tbssSize ≤ L.size := by
  rw [size]
  omega

theorem getInitializedTlsSize_eq : getInitializedTlsSize L = L.tdataEnd - L.tdataStart :=
  sub64_of_le L.word L.ordered

end Layout

/-- An allocated block that ends within the address space. -/
structure Block (L : Layout) where
  base : Nat
  nonnull : 0 < base
  fits : base + L.extent ≤ 2 ^ 64

namespace Block

variable {L : Layout} (B : Block L)
include B

theorem extent_lt : L.extent < 2 ^ 64 := by
  have := B.nonnull
  have := B.fits
  omega

theorem getUninitializedTlsOffset_eq : getUninitializedTlsOffset L = L.offset := by
  have ordered := L.ordered
  have word := L.word
  have small := B.extent_lt
  rw [Layout.extent, sizeofTcb, Layout.size, Layout.offset] at small
  rw [getUninitializedTlsOffset, sub64, alignUp, u64, u64, tbssAlignment, Layout.offset]
  omega

theorem getTlsSize_eq : getTlsSize L = L.size := by
  have small := B.extent_lt
  rw [Layout.extent, sizeofTcb, Layout.size] at small
  rw [getTlsSize, B.getUninitializedTlsOffset_eq, alignedSize, alignUp, u64, u64, tbssAlignment,
    Layout.size]
  omega

theorem getTlsAllocSize_eq : getTlsAllocSize L = L.extent := by
  rw [getTlsAllocSize, B.getTlsSize_eq]
  exact u64_of_lt B.extent_lt

/-- The single round-up of the linker and the two of the code agree. -/
theorem displacement_eq {size : Nat} (segment : L.IsSegmentSize size) :
    L.displacement size = L.size := by
  have ordered := L.ordered
  have word := L.word
  have small := B.extent_lt
  rw [Layout.extent, sizeofTcb, Layout.size, Layout.offset] at small
  -- Behind the round-up of `.tdata` the end of the segment is rounded up like the size of `.tbss`.
  have finish : alignUp (u64 (L.tdataStart + size)) tbssAlignment =
      u64 ((L.tdataEnd + 4095) / 4096 * 4096 + (L.tbssSize + 4095) / 4096 * 4096) := by
    have start : L.tdataStart < 2 ^ 64 := Nat.lt_of_le_of_lt ordered word
    have tdata := alignUp_u64 L.tdataEnd
    rw [u64_of_lt word] at tdata
    rcases segment with rfl | ⟨empty, rfl⟩
    · rw [u64_add_sub64 _ start, alignUp_u64, tdata, u64_add_boundary]
    · have whole : u64 (L.tdataStart + sub64 L.tdataEnd L.tdataStart) = L.tdataEnd := by
        have sum := u64_add_sub64 L.tdataEnd start
        rwa [u64_of_lt word] at sum
      rw [whole, tdata, empty]
      exact congrArg u64 (Nat.add_zero _).symm
  rw [Layout.displacement, finish, sub64_u64 (by omega) (by omega) (by omega), Layout.size,
    Layout.offset]
  omega

variable {compartment low high : Nat} {m : Memory}

theorem initializeTls_fst :
    (initializeTls L compartment B.base low high m).1 = B.base + L.size := by
  have fits := B.fits
  rw [Layout.extent, sizeofTcb] at fits
  rw [initializeTls, B.getTlsSize_eq]
  exact u64_of_lt (by omega)

/-- The two sections and the control block are written behind each other. -/
theorem initializeTls_snd : (initializeTls L compartment B.base low high m).2 =
    store (fill (copy m B.base L.tdataStart (L.tdataEnd - L.tdataStart))
      (B.base + L.offset) 0 L.tbssSize)
      (B.base + L.size) (controlBlock (B.base + L.size) low high compartment) := by
  have fits := B.fits
  have inside := L.offset_add_tbss_le
  rw [Layout.extent, sizeofTcb] at fits
  have offset : u64 (B.base + L.offset) = B.base + L.offset := u64_of_lt (by omega)
  have tlsBase : u64 (B.base + L.size) = B.base + L.size := u64_of_lt (by omega)
  simp only [initializeTls, Layout.getInitializedTlsSize_eq, B.getUninitializedTlsOffset_eq,
    B.getTlsSize_eq, offset, tlsBase, getInitializedTlsStart, getUninitializedTlsSize]
  rw [store_controlBlock]

/-- Where the linker expects a byte of the segment. -/
theorem address_eq {size x : Nat} (segment : L.IsSegmentSize size) (inside : x < L.size) :
    u64 (sub64 (B.base + L.size) (L.displacement size) + x) = B.base + x := by
  have fits := B.fits
  rw [Layout.extent, sizeofTcb] at fits
  rw [B.displacement_eq segment, sub64_of_le (by omega) (by omega), Nat.add_sub_cancel,
    u64_of_lt (by omega)]

theorem tdata_copied {x : Nat} (inside : x < L.tdataEnd - L.tdataStart) :
    (initializeTls L compartment B.base low high m).2 (B.base + x) = m (L.tdataStart + x) := by
  have before := L.tdata_le_offset
  have behind := L.offset_add_tbss_le
  rw [B.initializeTls_snd, store_outside (by omega), fill_outside (by omega), copy_inside inside]

theorem tbss_zeroed {x : Nat} (inside : x < L.tbssSize) :
    (initializeTls L compartment B.base low high m).2 (B.base + L.offset + x) = 0 := by
  have behind := L.offset_add_tbss_le
  rw [B.initializeTls_snd, store_outside (by omega), fill_inside inside]

theorem load_controlBlock :
    load (initializeTls L compartment B.base low high m).2 (B.base + L.size) sizeofTcb =
      controlBlock (B.base + L.size) low high compartment := by
  rw [B.initializeTls_snd, ← length_controlBlock (B.base + L.size) low high compartment,
    load_store]

/-- Nothing outside the block changes. -/
theorem unchanged {a : Nat} (outside : a < B.base ∨ B.base + L.extent ≤ a) :
    (initializeTls L compartment B.base low high m).2 a = m a := by
  have first := L.tdata_le_offset
  have second := L.offset_add_tbss_le
  have length := length_controlBlock (B.base + L.size) low high compartment
  rw [Layout.extent] at outside
  rw [B.initializeTls_snd, store_outside (by omega), fill_outside (by omega),
    copy_outside (by omega)]

/-- The bytes that have an initial value have it in the block. -/
theorem initialByte_placed {x : Nat} {byte : UInt8} (initial : L.initialByte m x = some byte) :
    x < L.size ∧ (initializeTls L compartment B.base low high m).2 (B.base + x) = byte := by
  have first := L.tdata_le_offset
  have second := L.offset_add_tbss_le
  rw [Layout.initialByte] at initial
  split at initial
  next inside =>
    cases initial
    exact ⟨by omega, B.tdata_copied inside⟩
  next =>
    split at initial
    next inside =>
      cases initial
      refine ⟨by omega, ?_⟩
      have zero : (initializeTls L compartment B.base low high m).2
          (B.base + L.offset + (x - L.offset)) = 0 := B.tbss_zeroed (by omega)
      rwa [Nat.add_assoc, Nat.add_sub_of_le inside.1] at zero
    next => cases initial

/-- `free_tls` frees the block that `initialize_tls` was given. -/
theorem freeTls_initializeTls :
    freeTls L (initializeTls L compartment B.base low high m).1 = B.base := by
  have fits := B.fits
  rw [Layout.extent, sizeofTcb] at fits
  rw [B.initializeTls_fst, freeTls, B.getTlsSize_eq, sub64_of_le (by omega) (by omega),
    Nat.add_sub_cancel]

end Block

/-- The block of `get_tls_alloc_size` bytes that `initialize_tls` fills consists of the copy of
`.tdata`, the zeros of `.tbss` and the control block, in this order and without an overlap. Nothing
else is written. Every byte of the segment that has an initial value has it at the address that the
compiled code uses. -/
theorem tls_block_matches_linker (L : Layout) (B : Block L)
    (compartment low high : Nat) (m : Memory) :
    let result := initializeTls L compartment B.base low high m
    getTlsAllocSize L = L.extent ∧
    (B.base + (L.tdataEnd - L.tdataStart) ≤ B.base + L.offset ∧
      B.base + L.offset + L.tbssSize ≤ result.1 ∧
      result.1 + sizeofTcb = B.base + getTlsAllocSize L) ∧
    (∀ x < L.tdataEnd - L.tdataStart, result.2 (B.base + x) = m (L.tdataStart + x)) ∧
    (∀ x < L.tbssSize, result.2 (B.base + L.offset + x) = 0) ∧
    load result.2 result.1 sizeofTcb = controlBlock result.1 low high compartment ∧
    (∀ a, (a < B.base ∨ B.base + getTlsAllocSize L ≤ a) → result.2 a = m a) ∧
    ∀ size x byte, L.IsSegmentSize size → L.initialByte m x = some byte →
      u64 (sub64 result.1 (L.displacement size) + x) = B.base + x ∧
        result.2 (u64 (sub64 result.1 (L.displacement size) + x)) = byte := by
  have first := L.tdata_le_offset
  have second := L.offset_add_tbss_le
  simp only [B.initializeTls_fst, B.getTlsAllocSize_eq]
  refine ⟨trivial, ⟨by omega, by omega, rfl⟩, fun _ => B.tdata_copied, fun _ => B.tbss_zeroed,
    B.load_controlBlock, fun _ => B.unchanged, ?_⟩
  intro size x byte segment initial
  obtain ⟨inside, placed⟩ := B.initialByte_placed initial
  rw [B.address_eq segment inside]
  exact ⟨rfl, placed⟩

/-- A `.tdata` of 16 bytes that starts behind a boundary, and a `.tbss` of 24 bytes. -/
def sampleLayout : Layout := ⟨0x8008, 0x8018, 24, by decide, by decide⟩

def sampleBlock : Block sampleLayout := ⟨0x100000, by decide, by decide⟩

/-- The variable at offset 8 is found at its place in the copy. -/
theorem tls_block_sample :
    sampleLayout.IsSegmentSize 0x1010 ∧
    (initializeTls sampleLayout 0 0x100000 0 0 UInt8.ofNat).2
      (u64 (sub64 (initializeTls sampleLayout 0 0x100000 0 0 UInt8.ofNat).1
        (sampleLayout.displacement 0x1010) + 8)) = UInt8.ofNat 0x8010 := by
  have segment : sampleLayout.IsSegmentSize 0x1010 := .inl (by decide)
  obtain ⟨-, -, -, -, -, -, placed⟩ :=
    tls_block_matches_linker sampleLayout sampleBlock 0 0 0 UInt8.ofNat
  exact ⟨segment, (placed 0x1010 8 (UInt8.ofNat 0x8010) segment (by decide)).2⟩

end Monza.Tls
