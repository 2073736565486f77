import Monza.Sev.SharedMemory
import Monza.Lib.Bump

/-!
# Shared memory of host and guest

The host application allocates blocks of the region that it shares with the guest and
passes their addresses to the guest, which validates them against its own range. The two
bound checks were written independently of each other: they agree, for every sequence of
allocations.
-/

namespace Monza

open Outcome Transition Sev

/-! ## The host -/

/-- `std::runtime_error`. -/
structure RuntimeError where
  what : String
  deriving DecidableEq, Repr

def shmemSize : Nat := 64 * 1024 * 1024

/-- What `mmap` returns: the region fits behind its base. -/
structure HostMapping where
  base : Nat
  fits : base + shmemSize ≤ 2 ^ 64

/-- The members of a platform that the shared memory depends on, and the content of the region by
offset. -/
structure EnclavePlatform where
  shmemGuestBase : Nat
  mapping : HostMapping
  shmemOffset : Nat
  memory : Nat → UInt8

namespace EnclavePlatform

/-- `memset` on the region. -/
def memset (memory : Nat → UInt8) (offset : Nat) (value : UInt8) (size : Nat) : Nat → UInt8 :=
  fun i => if offset ≤ i ∧ i < offset + size then value else memory i

/-- The pointer on the host and the address in the guest, or the exception. -/
def allocateSharedInner (size alignment : Nat) (p : EnclavePlatform) :
    Except RuntimeError (Nat × Nat) × EnclavePlatform :=
  let alignedShmemOffset :=
    u64 (sub64 (u64 (p.shmemOffset + alignment)) 1 / alignment * alignment)
  if alignedShmemOffset ≥ p.shmemOffset ∧
      u64 (alignedShmemOffset + size) > alignedShmemOffset ∧
      u64 (alignedShmemOffset + size) < shmemSize then
    (.ok (u64 (p.mapping.base + alignedShmemOffset), u64 (p.shmemGuestBase + alignedShmemOffset)),
      { p with
        memory := memset p.memory alignedShmemOffset 0 size
        shmemOffset := u64 (alignedShmemOffset + size) })
  else (.error ⟨"Not enough enclave shared memory for allocation."⟩, p)

end EnclavePlatform

namespace QemuEnclavePlatform

def shmemStart : Nat := 2 ^ 40 - shmemSize

/-- The constructor, with the mapping that `shm_open` and `mmap` give if they do. The arguments of
the guest are at offset zero. -/
def create (tupleSize : Nat) (mapping : Option HostMapping) (memory : Nat → UInt8) :
    Except RuntimeError EnclavePlatform :=
  match mapping with
  | none => .error ⟨"Failed to map enclave shared memory to host."⟩
  | some mapping =>
    if shmemSize > tupleSize then .ok ⟨shmemStart, mapping, tupleSize, memory⟩
    else .error ⟨"No enough enclave shared memoy for initialization arguments."⟩

end QemuEnclavePlatform

/-! ## The guest -/

def AddressRange.checkValidSubrange (r other : AddressRange) : Bool :=
  decide (other.start ≥ r.start) && decide (other.start < r.stop) &&
    decide (other.stop > r.start) && decide (other.stop < r.stop) &&
    decide (other.start < other.stop)

/-- A pointer and a count of objects of `sizeofT` bytes, or the status for `exit`. -/
def validateArray (sizeofT : Nat) (sharedMemoryRange : Span) (baseAddress arrayCount : Nat) :
    Except Int (Nat × Nat) :=
  let validAddressRange := AddressRange.ofSpan sharedMemoryRange
  if ¬ validAddressRange.checkValidSubrange
      (.ofBounds baseAddress (u64 (baseAddress + u64 (sizeofT * arrayCount)))) then .error (-1)
  else .ok (u64 (sharedMemoryRange.data + sub64 baseAddress validAddressRange.start), arrayCount)

def validateObject (sizeofT : Nat) (sharedMemoryRange : Span) (baseAddress : Nat) :
    Except Int Nat :=
  let validAddressRange := AddressRange.ofSpan sharedMemoryRange
  if ¬ validAddressRange.checkValidSubrange
      (.ofBounds baseAddress (u64 (baseAddress + sizeofT))) then .error (-1)
  else .ok (u64 (sharedMemoryRange.data + sub64 baseAddress validAddressRange.start))

/-- The `io_shared_range` that `setup_hypervisor_stage2_generic` installs. -/
def setupHypervisorStage2Generic : Span := ⟨2 ^ 40 - ioSharedMemorySize, ioSharedMemorySize⟩

/-! ## Allocation -/

namespace EnclavePlatform

/-- A call with arguments of 64 bits. -/
structure Request where
  size : Nat
  alignment : Nat
  size_lt : size < 2 ^ 64
  alignment_pos : 1 ≤ alignment
  alignment_lt : alignment < 2 ^ 64

abbrev Call := Request × Except RuntimeError (Nat × Nat)

def Allocates (p : EnclavePlatform) (call : Call) (q : EnclavePlatform) : Prop :=
  allocateSharedInner call.1.size call.1.alignment p = (call.2, q)

/-- Where the guest finds the block that a call returned. -/
def Call.block (call : Call) : Option Span := call.2.toOption.map fun r => ⟨r.2, call.1.size⟩

variable {p q : EnclavePlatform} {call : Call}

/-- The rounding of the source is that of `align_up`. -/
theorem aligned_eq (request : Request) (offset : Nat) :
    u64 (sub64 (u64 (offset + request.alignment)) 1 / request.alignment * request.alignment) =
      alignUp offset request.alignment := by
  have pos := request.alignment_pos
  have less : sub64 (u64 (offset + request.alignment)) 1 =
      u64 (offset + (request.alignment - 1)) := by
    simp only [sub64, u64]
    omega
  rw [less, ← alignUp, u64_of_lt]
  exact Nat.lt_of_le_of_lt (Nat.div_mul_le_self _ _) (u64_lt _)

/-- A block that a call returns: aligned, behind what was handed out before, and inside. -/
structure Block (p : EnclavePlatform) (request : Request) (offset : Nat) : Prop where
  aligned : offset % request.alignment = 0
  behind : p.shmemOffset ≤ offset
  nonempty : 0 < request.size
  inside : offset + request.size < shmemSize

/-- All that a call can do. -/
theorem allocates_cases (step : Allocates p call q) :
    ((∃ e, call.2 = .error e) ∧ q = p) ∨
      ∃ offset, Block p call.1 offset ∧
        call.2 = .ok (u64 (p.mapping.base + offset), u64 (p.shmemGuestBase + offset)) ∧
        q = { p with
          memory := memset p.memory offset 0 call.1.size
          shmemOffset := offset + call.1.size } := by
  obtain ⟨request, result⟩ := call
  simp only [Allocates, allocateSharedInner, aligned_eq] at step
  split at step
  next room =>
    cases step
    obtain ⟨behind, nonempty, stop⟩ := room
    generalize offset_eq : alignUp p.shmemOffset request.alignment = offset at *
    have aligned : offset % request.alignment = 0 := by
      rw [← offset_eq]
      exact alignUp_mod _ _
    have size := request.size_lt
    -- a sum that wraps is below its first operand
    have sum : u64 (offset + request.size) = offset + request.size := by
      rw [shmemSize] at stop
      simp only [u64] at nonempty stop ⊢
      omega
    rw [sum] at nonempty stop ⊢
    exact .inr ⟨offset, ⟨aligned, behind, by simp only; omega, stop⟩, rfl, rfl⟩
  next =>
    cases step
    exact .inl ⟨⟨_, rfl⟩, rfl⟩

/-- The two views of the region, and an offset inside it. -/
structure Inv (p₀ p : EnclavePlatform) : Prop where
  mapping : p.mapping = p₀.mapping
  guestBase : p.shmemGuestBase = p₀.shmemGuestBase
  fits : p₀.shmemGuestBase + shmemSize ≤ 2 ^ 64
  offset : p.shmemOffset < shmemSize

variable {p₀ : EnclavePlatform} {calls : List Call}

theorem Inv.step (inv : Inv p₀ p) (step : Allocates p call q) : Inv p₀ q := by
  rcases allocates_cases step with ⟨-, rfl⟩ | ⟨offset, block, -, rfl⟩
  · exact inv
  · exact ⟨inv.mapping, inv.guestBase, inv.fits, block.inside⟩

theorem Inv.u64_add (inv : Inv p₀ p) {offset : Nat} (inside : offset < shmemSize) :
    u64 (p.mapping.base + offset) = p₀.mapping.base + offset ∧
      u64 (p.shmemGuestBase + offset) = p₀.shmemGuestBase + offset := by
  rw [inv.mapping, inv.guestBase]
  have := p₀.mapping.fits
  have := inv.fits
  exact ⟨u64_of_lt (by omega), u64_of_lt (by omega)⟩

/-- A call returns nothing, or a block behind all others. -/
theorem Inv.between (inv : Inv p₀ p) (step : Allocates p call q) :
    Bump.Between (p.shmemGuestBase + p.shmemOffset) (q.shmemGuestBase + q.shmemOffset)
      (call.block.toList.map fun b => (b.data, b.stop)) := by
  rcases allocates_cases step with ⟨⟨e, thrown⟩, rfl⟩ | ⟨offset, block, returned, rfl⟩
  · rw [Call.block, thrown]
    exact Nat.le_refl _
  · have behind := block.behind
    have inside := block.inside
    rw [Call.block, returned, (inv.u64_add (Nat.lt_of_le_of_lt (Nat.le_add_right _ _) inside)).2]
    simp only [Except.toOption, Option.map_some, Option.toList_some, List.map_cons, List.map_nil,
      Bump.Between, Span.stop, inv.guestBase]
    omega

theorem blocks_eq : (calls.filterMap Call.block).map (fun b => (b.data, b.stop)) =
    calls.flatMap fun call => call.block.toList.map fun b => (b.data, b.stop) := by
  rw [List.filterMap_eq_flatMap_toList, List.map_flatMap]

theorem blocks_between (inv : Inv p₀ p) (run : Run Allocates p calls q) :
    Bump.Between (p.shmemGuestBase + p.shmemOffset) (q.shmemGuestBase + q.shmemOffset)
      ((calls.filterMap Call.block).map fun b => (b.data, b.stop)) := by
  rw [blocks_eq]
  exact Bump.between_of_run (Inv p₀) (fun p => p.shmemGuestBase + p.shmemOffset)
    (fun call => call.block.toList.map fun b => (b.data, b.stop))
    (fun _ _ _ inv => inv.step) (fun _ _ _ inv => inv.between) run inv

/-- Every block of a run is a block for its first state. -/
theorem block_of_run (inv : Inv p₀ p) (run : Run Allocates p calls q) :
    ∀ call ∈ calls, ∀ r, call.2 = .ok r → ∃ offset, Block p call.1 offset ∧
      r = (p₀.mapping.base + offset, p₀.shmemGuestBase + offset) := by
  induction run with
  | nil => simp
  | cons first _ ih =>
      rw [List.forall_mem_cons]
      rcases allocates_cases first with ⟨⟨e, thrown⟩, rfl⟩ | ⟨offset, block, returned, next⟩
      · refine ⟨fun r returned => ?_, ih inv⟩
        rw [thrown] at returned
        cases returned
      · constructor
        · intro r same
          rw [returned] at same
          cases same
          obtain ⟨host, guest⟩ :=
            inv.u64_add (Nat.lt_of_le_of_lt (Nat.le_add_right _ _) block.inside)
          exact ⟨offset, block, by rw [host, guest]⟩
        · intro call mem r same
          obtain ⟨later, block', equal⟩ := ih (inv.step first) call mem r same
          -- the cursor has only moved on
          have behind : _ ≤ later := block'.behind
          have := block.behind
          refine ⟨later, ⟨block'.aligned, ?_, block'.nonempty, block'.inside⟩, equal⟩
          rw [next] at behind
          simp only at behind
          omega

end EnclavePlatform

/-! ## Validation -/

section Validation

variable {guest : Span} {offset size : Nat}

/-- The guest accepts what lies inside the region and does not reach its end. -/
theorem checkValidSubrange_of_inside (fits : guest.stop < 2 ^ 64) (nonempty : 0 < size)
    (inside : offset + size < guest.size) :
    (AddressRange.ofSpan guest).checkValidSubrange
      (.ofBounds (guest.data + offset) (u64 (guest.data + offset + size))) = true := by
  rw [Span.stop] at fits
  rw [u64_of_lt (by omega)]
  simp only [AddressRange.checkValidSubrange, AddressRange.ofSpan, AddressRange.ofBounds_start,
    AddressRange.ofBounds_stop, u64_of_lt fits, Bool.and_eq_true, decide_eq_true_iff]
  omega

theorem u64_data_add_sub64 (fits : guest.stop < 2 ^ 64) (inside : offset < guest.size) :
    u64 (guest.data + sub64 (guest.data + offset) (AddressRange.ofSpan guest).start) =
      guest.data + offset := by
  rw [Span.stop] at fits
  have start : (AddressRange.ofSpan guest).start = guest.data := rfl
  rw [start, sub64_of_le (by omega) (Nat.le_add_right _ _), Nat.add_sub_cancel_left,
    u64_of_lt (by omega)]

theorem validateObject_eq_ok (fits : guest.stop < 2 ^ 64) (nonempty : 0 < size)
    (inside : offset + size < guest.size) :
    validateObject size guest (guest.data + offset) = .ok (guest.data + offset) := by
  have offset_lt : offset < guest.size := Nat.lt_of_le_of_lt (Nat.le_add_right _ _) inside
  rw [validateObject, checkValidSubrange_of_inside fits nonempty inside,
    u64_data_add_sub64 fits offset_lt]
  exact if_neg (by simp)

theorem validateArray_eq_ok (fits : guest.stop < 2 ^ 64) (nonempty : 0 < size)
    (inside : offset + size < guest.size) :
    validateArray 1 guest (guest.data + offset) size = .ok (guest.data + offset, size) := by
  have offset_lt : offset < guest.size := Nat.lt_of_le_of_lt (Nat.le_add_right _ _) inside
  rw [Span.stop] at fits
  rw [validateArray, Nat.one_mul, u64_of_lt (n := size) (by omega),
    checkValidSubrange_of_inside fits nonempty inside, u64_data_add_sub64 fits offset_lt]
  exact if_neg (by simp)

variable {range : Span} {base : Nat}

/-- What the guest accepts lies inside its range, and neither of the two wraps. -/
theorem inside_of_checkValidSubrange (data : range.data < 2 ^ 64) (length : range.size < 2 ^ 64)
    (base_lt : base < 2 ^ 64) (size_lt : size < 2 ^ 64)
    (check : (AddressRange.ofSpan range).checkValidSubrange
      (.ofBounds base (u64 (base + size))) = true) :
    range.data ≤ base ∧ base + size < range.stop ∧ range.stop < 2 ^ 64 := by
  simp only [AddressRange.checkValidSubrange, Bool.and_eq_true, decide_eq_true_eq] at check
  obtain ⟨⟨⟨⟨start, -⟩, -⟩, stop⟩, nonempty⟩ := check
  simp only [AddressRange.ofSpan, AddressRange.ofBounds_start, AddressRange.ofBounds_stop,
    u64] at start stop nonempty
  rw [Span.stop]
  omega

/-- The bytes at an address are in a range, and the pointer leads to its offset in the range. -/
structure InRange (range : Span) (base pointer bytes : Nat) : Prop where
  start : range.data ≤ base
  stop : base + bytes ≤ range.stop
  word : base + bytes < 2 ^ 64
  offset : pointer = range.data + (base - range.data)

theorem inRange_of_check (data : range.data < 2 ^ 64) (length : range.size < 2 ^ 64)
    (base_lt : base < 2 ^ 64) (size_lt : size < 2 ^ 64)
    (check : (AddressRange.ofSpan range).checkValidSubrange
      (.ofBounds base (u64 (base + size))) = true) :
    InRange range base (u64 (range.data + sub64 base (AddressRange.ofSpan range).start)) size := by
  obtain ⟨start, stop, word⟩ := inside_of_checkValidSubrange data length base_lt size_lt check
  refine ⟨start, Nat.le_of_lt stop, Nat.lt_trans stop word, ?_⟩
  have same : (AddressRange.ofSpan range).start = range.data := rfl
  rw [same, sub64_of_le base_lt start]
  exact u64_of_lt (by omega)

/-- An array that the guest accepts is inside the range exactly if its size in bytes is not too
large for a word, and an object always is. -/
theorem validated_inside_iff (sizeofT baseAddress arrayCount : Nat) (range : Span)
    (data : range.data < 2 ^ 64) (length : range.size < 2 ^ 64) (base_lt : baseAddress < 2 ^ 64)
    (sizeof_lt : sizeofT < 2 ^ 64) :
    (∀ r, validateArray sizeofT range baseAddress arrayCount = .ok r →
      ((r.2 = arrayCount ∧ InRange range baseAddress r.1 (sizeofT * arrayCount)) ↔
        sizeofT * arrayCount < 2 ^ 64)) ∧
    (∀ pointer, validateObject sizeofT range baseAddress = .ok pointer →
      InRange range baseAddress pointer sizeofT) := by
  constructor
  · intro r returned
    obtain ⟨check, returned⟩ := guard_eq_ok.mp returned
    rw [not_not] at check
    cases returned
    constructor
    · rintro ⟨-, inside⟩
      exact Nat.lt_of_le_of_lt (Nat.le_add_left _ _) inside.word
    · intro small
      rw [u64_of_lt small] at check
      exact ⟨rfl, inRange_of_check data length base_lt small check⟩
  · intro pointer returned
    obtain ⟨check, returned⟩ := guard_eq_ok.mp returned
    rw [not_not] at check
    cases returned
    exact inRange_of_check data length base_lt sizeof_lt check

theorem validated_inside_iff_eight_words :
    InRange ⟨0x1000, 0x1000⟩ 0x1100 0x1100 (8 * 8) ∧ InRange ⟨0x1000, 0x1000⟩ 0x1100 0x1100 8 := by
  have theorems := validated_inside_iff 8 0x1100 8 ⟨0x1000, 0x1000⟩ (by decide) (by decide)
    (by decide) (by decide)
  exact ⟨((theorems.1 (0x1100, 8) (by decide)).mpr (by decide)).2, theorems.2 0x1100 (by decide)⟩

/-- The size of so many words of 8 bytes wraps to that of one. -/
theorem validate_array_wraps :
    validateArray 8 ⟨0x1000, 0x1000⟩ 0x1100 (2 ^ 61 + 1) = .ok (0x1100, 2 ^ 61 + 1) ∧
      ¬ InRange ⟨0x1000, 0x1000⟩ 0x1100 0x1100 (8 * (2 ^ 61 + 1)) := by
  refine ⟨by decide, fun inside => ?_⟩
  exact absurd inside.word (by decide)

end Validation

/-! ## Agreement -/

open EnclavePlatform

/-- A call that returned did so with one offset of the region for both sides: aligned, behind the
arguments, inside, and accepted by the guest. -/
structure Returned (tupleSize : Nat) (p : EnclavePlatform) (guest : Span) (request : Request)
    (r : Nat × Nat) (offset : Nat) : Prop where
  host : r.1 = p.mapping.base + offset
  address : r.2 = guest.data + offset
  aligned : offset % request.alignment = 0
  behind : tupleSize ≤ offset
  inside : offset + request.size ≤ shmemSize
  array : validateArray 1 guest r.2 request.size = .ok (guest.data + offset, request.size)
  object : validateObject request.size guest r.2 = .ok (guest.data + offset)

structure Agreement (tupleSize : Nat) (p : EnclavePlatform) (guest : Span) (calls : List Call)
    (q : EnclavePlatform) : Prop where
  throws : ∀ call q', Allocates q call q' → (∃ e, call.2 = .error e) →
    q'.shmemOffset = q.shmemOffset
  returns : ∀ call ∈ calls, ∀ r, call.2 = .ok r →
    ∃ offset, Returned tupleSize p guest call.1 r offset
  disjoint : (calls.filterMap Call.block).Pairwise Span.Disjoint

theorem agreement_of_run {tupleSize : Nat} {p q : EnclavePlatform} {guest : Span}
    {calls : List Call} (start : p.shmemOffset = tupleSize) (room : tupleSize < shmemSize)
    (base : p.shmemGuestBase = guest.data) (size : guest.size = shmemSize)
    (fits : guest.stop < 2 ^ 64) (run : Run Allocates p calls q) :
    Agreement tupleSize p guest calls q := by
  have inv : Inv p p := ⟨rfl, rfl, by rw [base, ← size]; exact Nat.le_of_lt fits, start ▸ room⟩
  have between := blocks_between inv run
  refine ⟨?_, ?_, ?_⟩
  · rintro call q' step ⟨e, thrown⟩
    rcases allocates_cases step with ⟨-, rfl⟩ | ⟨offset, -, returned, -⟩
    · rfl
    · rw [thrown] at returned
      cases returned
  · intro call mem r returned
    obtain ⟨offset, block, rfl⟩ := block_of_run inv run call mem r returned
    have inside : offset + call.1.size < guest.size := size ▸ block.inside
    simp only [base]
    exact ⟨offset, rfl, rfl, block.aligned, start ▸ block.behind, Nat.le_of_lt block.inside,
      validateArray_eq_ok fits block.nonempty inside,
      validateObject_eq_ok fits block.nonempty inside⟩
  · have apart := List.pairwise_map.mp between.pairwise
    exact apart.imp fun le => Span.disjoint_of_le le

/-- Host and guest agree on every block of the platform for QEMU. -/
theorem host_and_guest_agree {tupleSize : Nat} {mapping : Option HostMapping}
    {memory : Nat → UInt8} {p q : EnclavePlatform} {calls : List Call}
    (created : QemuEnclavePlatform.create tupleSize mapping memory = .ok p)
    (run : Run Allocates p calls q) :
    Agreement tupleSize p setupHypervisorStage2Generic calls q := by
  cases mapping with
  | none => cases created
  | some mapping =>
      rw [QemuEnclavePlatform.create] at created
      split at created
      next room =>
        cases created
        exact agreement_of_run rfl room rfl rfl (by decide) run
      next => cases created

/-- The whole region, which is too much, and then all of it behind the arguments but one byte. -/
def sampleCalls : List Call :=
  [(⟨0x4000000, 1, by decide, by decide, by decide⟩,
      .error ⟨"Not enough enclave shared memory for allocation."⟩),
    (⟨0x3ffff7f, 0x80, by decide, by decide, by decide⟩, .ok (0x7f0000000080, 0xfffc000080))]

def sampleMapping : HostMapping := ⟨0x7f0000000000, by decide⟩

theorem host_and_guest_agree_full :
    ∃ p q, QemuEnclavePlatform.create 0x40 (some sampleMapping) (fun _ => 0) = .ok p ∧
      Run Allocates p sampleCalls q ∧
      Agreement 0x40 p setupHypervisorStage2Generic sampleCalls q := by
  let p : EnclavePlatform := ⟨QemuEnclavePlatform.shmemStart, sampleMapping, 0x40, fun _ => 0⟩
  let q : EnclavePlatform := ⟨QemuEnclavePlatform.shmemStart, sampleMapping, 0x3ffffff,
    memset (fun _ => 0) 0x80 0 0x3ffff7f⟩
  have refused : allocateSharedInner 0x4000000 1 p =
      (.error ⟨"Not enough enclave shared memory for allocation."⟩, p) := by
    rw [allocateSharedInner, if_neg (by decide +kernel)]
  have returned : allocateSharedInner 0x3ffff7f 0x80 p =
      (.ok (0x7f0000000080, 0xfffc000080), q) := by
    have aligned : u64 (sub64 (u64 (p.shmemOffset + 0x80)) 1 / 0x80 * 0x80) = 0x80 := by
      decide +kernel
    rw [allocateSharedInner, aligned, if_pos (by decide +kernel)]
    rfl
  have run : Run Allocates p sampleCalls q := .cons refused (.cons returned (.nil _))
  have created : QemuEnclavePlatform.create 0x40 (some sampleMapping) (fun _ => 0) = .ok p := rfl
  exact ⟨p, q, created, run, host_and_guest_agree created run⟩

end Monza
