import Monza.Compartment.Isolation
import Monza.Ownership.Validate
import Mathlib.Data.List.Basic

/-!
# Printing on behalf of a compartment

`kwritev_stdout_protected` prints buffers that a compartment describes. It reads them
under the table of the kernel, so its checks have to stand in for the table of the
compartment. They differ from it in two ways. A buffer that nobody owns is printed
wherever it lies, and the check of a buffer does not look at every block of it.

The model keeps the addresses whose bytes are sent to the serial port. What was sent
before a fault stays sent.
-/

namespace Monza

open Outcome OwnershipMap

/-- The memory as the kernel sees it under its own table. -/
structure KernelMemory where
  mapped : Nat → Bool
  bytes : Nat → BitVec 8

/-- `std::span<const unsigned char>`. -/
structure Buffer where
  data : Nat
  size : Nat
  deriving DecidableEq, Repr

/-- The elements of a span. Its iterators are addresses, so their distance wraps. -/
def elementAddresses (sizeT data size : Nat) : List Nat :=
  (List.range (u64 (sizeT * size) / sizeT)).map fun i => u64 (data + sizeT * i)

namespace KernelMemory

variable (mem : KernelMemory)

/-- A read of unmapped memory is a page fault of the kernel, which is fatal. -/
def readByte (a : Nat) : Result (BitVec 8) :=
  if mem.mapped a then .ok (mem.bytes a) else .error .kabort

/-- A 64-bit word, lowest byte first. -/
def readWord (a : Nat) : Result Nat := do
  let bytes ← (List.range 8).mapM fun i => mem.readByte (u64 (a + i))
  .ok (bytes.foldr (fun b n => b.toNat + 256 * n) 0)

def readSpan (a : Nat) : Result Buffer := do
  let data ← mem.readWord a
  let size ← mem.readWord (u64 (a + 8))
  .ok ⟨data, size⟩

end KernelMemory

/-- `sizeof(std::span<const unsigned char>)`. -/
def sizeofSpan : Nat := 16

/-- The result of printing; a fault carries what was sent before it. -/
abbrev Printing := Except (Fault × List Nat)

structure Output where
  sent : List Nat
  totalLength : Nat
  deriving DecidableEq, Repr

def Printing.sent : Printing Output → List Nat
  | .ok out => out.sent
  | .error (_, sent) => sent

section

variable (P : Platform) (m : OwnershipMap) (mem : KernelMemory) (owner : CompartmentOwner)

/-- An inner buffer has to belong to nobody or to the compartment. -/
def bufferAccepted (buffer : Buffer) : Result Bool := do
  let unowned ← validateOwner P.unit m .null 1 buffer.data buffer.size
  if unowned then .ok true else validateOwner P.unit m owner 1 buffer.data buffer.size

/-- The checks made before the lock is taken. -/
def checkStdout (data size : Nat) : Result Unit := do
  let accepted ← validateOwner P.unit m owner sizeofSpan data size
  if !accepted then .error .callbackAborted
  else (elementAddresses sizeofSpan data size).forM fun a => do
    let buffer ← mem.readSpan a
    let accepted ← bufferAccepted P m owner buffer
    if !accepted then .error .callbackAborted else .ok ()

/-- Send the byte at an address. -/
def uartputc (sent : List Nat) (a : Nat) : Printing (List Nat) :=
  if mem.mapped a then .ok (sent ++ [a]) else .error (.kabort, sent)

def printBuffer (out : Output) (a : Nat) : Printing Output := do
  let buffer ← (mem.readSpan a).mapError fun f => (f, out.sent)
  let sent ← (elementAddresses 1 buffer.data buffer.size).foldlM (uartputc mem) out.sent
  .ok ⟨sent, u64 (out.totalLength + buffer.size)⟩

def kwritevStdoutProtected (data size : Nat) : Printing Output := do
  (checkStdout P m mem owner data size).mapError fun f => (f, [])
  (elementAddresses sizeofSpan data size).foldlM (printBuffer mem) ⟨[], 0⟩

end

section

variable (P : Platform)

/-- A fault somewhere on the page of the address would count as a fault in the heap. -/
def Platform.OnHeapPage (a : Nat) : Prop :=
  ∃ x, x / P.ps.bytes = a / P.ps.bytes ∧ P.heap.isHeapAddress x = true

/-- The predefined map lets compartments read the address. -/
def Platform.InReadableImage (a : Nat) : Prop :=
  ∃ e ∈ predefinedMap P.ps P.layout, e.range.overlaps a = true ∧
    (Rights.ofFlags (pagetableLeafPermissions false e.perm)).user = true

/-- The compartment can read the address itself: as its own memory, through a read fault
or through the mappings of its creation. -/
def CompartmentReads (m : OwnershipMap) (owner : CompartmentOwner) (a : Nat) : Prop :=
  getMonzaOwner P.unit m a = owner ∨
    getMonzaOwner P.unit m a = .null ∧ P.OnHeapPage a ∨ P.InReadableImage a

end

/-- What lets a call pass: the compartment owns the spans, and each buffer that they describe is
memory of nobody or of the compartment, as far as the checks look. -/
structure StdoutAccepted (P : Platform) (m : OwnershipMap) (mem : KernelMemory)
    (owner : CompartmentOwner) (data size : Nat) : Prop where
  spans : validateOwner P.unit m owner sizeofSpan data size = .ok true
  buffers : ∀ a ∈ elementAddresses sizeofSpan data size, ∃ b, mem.readSpan a = .ok b ∧
    (validateOwner P.unit m .null 1 b.data b.size = .ok true ∨
      validateOwner P.unit m .null 1 b.data b.size = .ok false ∧
        validateOwner P.unit m owner 1 b.data b.size = .ok true)

/-- A byte of a buffer by its offset. -/
abbrev Position := Buffer × Nat

def Position.address (q : Position) : Nat := u64 (q.1.data + q.2)

/-- The check of the buffer does not look at the block of the byte. -/
def Position.Skipped (unit : Nat) (q : Position) : Prop :=
  ∀ k, k * unit < q.1.size → q.1.data + q.1.size < 2 ^ 64 →
    (q.1.data + k * unit) / unit ≠ q.address / unit

def Buffer.positions (b : Buffer) : List Position := (List.range b.size).map fun i => (b, i)

namespace KernelMemory

variable (mem : KernelMemory)

/-- The buffers described by a span of spans. -/
def buffers (data size : Nat) : List Buffer :=
  (elementAddresses sizeofSpan data size).filterMap fun a => (mem.readSpan a).toOption

/-- The bytes printing gets to: all before the first the kernel has not mapped. -/
def reached (data size : Nat) : List Position :=
  ((mem.buffers data size).flatMap Buffer.positions).takeWhile fun q => mem.mapped q.address

end KernelMemory

variable {P : Platform} {m : OwnershipMap} {mem : KernelMemory} {owner : CompartmentOwner}

theorem foldlM_uartputc (addresses sent : List Nat) :
    addresses.foldlM (uartputc mem) sent =
      if addresses.all mem.mapped then .ok (sent ++ addresses)
      else .error (.kabort, sent ++ addresses.takeWhile mem.mapped) := by
  induction addresses generalizing sent with
  | nil => simp [pure, Except.pure]
  | cons a addresses ih =>
      rw [List.foldlM_cons, uartputc]
      cases h : mem.mapped a with
      | false => simp [h, bind, Except.bind]
      | true =>
          simp only [if_true, bind, Except.bind, ih, List.all_cons, h, Bool.true_and,
            List.takeWhile_cons_of_pos h, List.append_assoc, List.singleton_append]

theorem printBuffer_of_readSpan {a : Nat} {b : Buffer} (h : mem.readSpan a = .ok b)
    (out : Output) : printBuffer mem out a =
      if (elementAddresses 1 b.data b.size).all mem.mapped then
        .ok ⟨out.sent ++ elementAddresses 1 b.data b.size, u64 (out.totalLength + b.size)⟩
      else
        .error (.kabort, out.sent ++ (elementAddresses 1 b.data b.size).takeWhile mem.mapped) := by
  rw [printBuffer, h]
  simp only [Except.mapError, bind, Except.bind, foldlM_uartputc]
  cases (elementAddresses 1 b.data b.size).all mem.mapped <;> rfl

/-- Printing sends the addresses of all buffers up to the first unmapped one. -/
theorem sent_foldlM_printBuffer {spans : List Nat}
    (readable : ∀ a ∈ spans, ∃ b, mem.readSpan a = .ok b) (out : Output) :
    Printing.sent (spans.foldlM (printBuffer mem) out) = out.sent ++
      (((spans.filterMap fun a => (mem.readSpan a).toOption).flatMap fun b =>
        elementAddresses 1 b.data b.size).takeWhile mem.mapped) := by
  induction spans generalizing out with
  | nil => simp [pure, Except.pure, Printing.sent]
  | cons a spans ih =>
      obtain ⟨b, hb⟩ := readable a List.mem_cons_self
      rw [List.foldlM_cons, printBuffer_of_readSpan hb, List.filterMap_cons_some (b := b) (by
        rw [hb]; rfl), List.flatMap_cons]
      split
      case isTrue mapped =>
          have := ih (fun a ha => readable a (List.mem_cons_of_mem _ ha))
            ⟨out.sent ++ elementAddresses 1 b.data b.size, u64 (out.totalLength + b.size)⟩
          rw [List.takeWhile_append_of_pos (List.all_eq_true.mp mapped), ← List.append_assoc]
          exact this
      case isFalse unmapped =>
          rw [List.takeWhile_append, if_neg]
          · rfl
          · intro hlen
            have same := (List.takeWhile_prefix mem.mapped).eq_of_length hlen
            refine unmapped ?_
            rw [← same]
            exact List.all_takeWhile

theorem bufferAccepted_eq_true_iff {b : Buffer} : bufferAccepted P m owner b = .ok true ↔
    validateOwner P.unit m .null 1 b.data b.size = .ok true ∨
      validateOwner P.unit m .null 1 b.data b.size = .ok false ∧
        validateOwner P.unit m owner 1 b.data b.size = .ok true := by
  rw [bufferAccepted, bind_eq_ok]
  constructor
  · rintro ⟨unowned, first, second⟩
    cases unowned with
    | true => exact Or.inl first
    | false => exact Or.inr ⟨first, second⟩
  · rintro (first | ⟨first, second⟩)
    · exact ⟨true, first, rfl⟩
    · exact ⟨false, first, second⟩

theorem checkStdout_eq_ok_iff {data size : Nat} : checkStdout P m mem owner data size = .ok () ↔
    StdoutAccepted P m mem owner data size := by
  have buffer : ∀ a, (do
      let buffer ← mem.readSpan a
      let accepted ← bufferAccepted P m owner buffer
      if !accepted then .error .callbackAborted else .ok () : Result Unit) = .ok () ↔
      ∃ b, mem.readSpan a = .ok b ∧ bufferAccepted P m owner b = .ok true := by
    intro a
    rw [bind_eq_ok]
    refine exists_congr fun b => and_congr_right fun _ => ?_
    rw [bind_eq_ok]
    constructor
    · rintro ⟨accepted, run, done⟩
      cases accepted with
      | true => exact run
      | false => cases done
    · intro run
      exact ⟨true, run, rfl⟩
  rw [checkStdout, bind_eq_ok]
  constructor
  · rintro ⟨accepted, run, done⟩
    cases accepted with
    | false => cases done
    | true =>
        refine ⟨run, fun a ha => ?_⟩
        simp only [← bufferAccepted_eq_true_iff]
        exact (buffer a).mp (forM_eq_ok.mp done a ha)
  · rintro ⟨spans, buffers⟩
    refine ⟨true, spans, forM_eq_ok.mpr fun a ha => (buffer a).mpr ?_⟩
    simp only [bufferAccepted_eq_true_iff]
    exact buffers a ha

theorem elementAddresses_bytes {data size : Nat} (h : size < 2 ^ 64) :
    elementAddresses 1 data size = (List.range size).map fun i => u64 (data + i) := by
  simp only [elementAddresses, Nat.one_mul, Nat.div_one, u64_of_lt h]

namespace KernelMemory

theorem foldr_bytes_lt (bytes : List (BitVec 8)) :
    bytes.foldr (fun b n => b.toNat + 256 * n) 0 < 256 ^ bytes.length := by
  induction bytes with
  | nil => exact Nat.one_pos
  | cons b bytes ih =>
      have := b.isLt
      rw [List.foldr_cons, List.length_cons, Nat.pow_succ]
      omega

theorem readWord_lt {a n : Nat} (h : mem.readWord a = .ok n) : n < 2 ^ 64 := by
  obtain ⟨bytes, hbytes, h⟩ := bind_eq_ok.mp h
  cases h
  have := foldr_bytes_lt bytes
  rw [length_of_mapM hbytes] at this
  exact this

theorem readSpan_lt {a : Nat} {b : Buffer} (h : mem.readSpan a = .ok b) :
    b.data < 2 ^ 64 ∧ b.size < 2 ^ 64 := by
  obtain ⟨data, hdata, h⟩ := bind_eq_ok.mp h
  obtain ⟨size, hsize, h⟩ := bind_eq_ok.mp h
  cases h
  exact ⟨readWord_lt hdata, readWord_lt hsize⟩

theorem mem_buffers {data size : Nat} {b : Buffer} (h : b ∈ mem.buffers data size) :
    ∃ a ∈ elementAddresses sizeofSpan data size, mem.readSpan a = .ok b := by
  obtain ⟨a, ha, hb⟩ := List.mem_filterMap.mp h
  refine ⟨a, ha, ?_⟩
  cases hread : mem.readSpan a with
  | error f =>
      rw [hread] at hb
      cases hb
  | ok b' =>
      rw [hread] at hb
      cases hb
      rfl

theorem reached_addresses {data size : Nat} :
    (mem.reached data size).map Position.address =
      ((mem.buffers data size).flatMap fun b =>
        elementAddresses 1 b.data b.size).takeWhile mem.mapped := by
  have positions : ∀ b ∈ mem.buffers data size,
      b.positions.map Position.address = elementAddresses 1 b.data b.size := by
    intro b hb
    obtain ⟨a, -, hread⟩ := mem_buffers hb
    rw [elementAddresses_bytes (readSpan_lt hread).2, Buffer.positions, List.map_map]
    rfl
  rw [reached, ← List.flatMap_congr positions, ← List.map_flatMap, List.takeWhile_map]
  rfl

end KernelMemory

theorem kwritevStdoutProtected_sent {data size : Nat} :
    Printing.sent (kwritevStdoutProtected P m mem owner data size) =
      if checkStdout P m mem owner data size = .ok () then
        (mem.reached data size).map Position.address
      else [] := by
  rw [kwritevStdoutProtected]
  cases check : checkStdout P m mem owner data size with
  | error f => rfl
  | ok u =>
      have printed := sent_foldlM_printBuffer (fun a ha =>
        ((checkStdout_eq_ok_iff.mp check).buffers a ha).imp fun b hb => hb.1) ⟨[], 0⟩
      rw [if_pos rfl, KernelMemory.reached_addresses]
      exact printed

/-- A passed check speaks for the blocks it looked at. -/
theorem owner_of_validateOwner {unit : Nat} (dvd : unit ∣ 2 ^ 64) {o : CompartmentOwner}
    {q : Position} (hdata : q.1.data < 2 ^ 64) (hsize : q.1.size < 2 ^ 64) (hi : q.2 < q.1.size)
    (h : validateOwner unit m o 1 q.1.data q.1.size = .ok true) (checked : ¬ q.Skipped unit) :
    getMonzaOwner unit m q.address = o := by
  simp only [Position.Skipped, not_forall, not_not] at checked
  obtain ⟨k, hk, inside, block⟩ := checked
  rw [validateOwner, Nat.one_mul, u64_of_lt hsize,
    validateOwnerRange_eq_true_iff dvd hdata hsize] at h
  rcases h with h | h | ⟨-, owned⟩
  · omega
  · omega
  · have first := owned k hk
    rw [getMonzaOwner, block] at first
    exact first

theorem KernelMemory.mem_reached {data size : Nat} {q : Position}
    (h : q ∈ mem.reached data size) : q.1 ∈ mem.buffers data size ∧ q.2 < q.1.size := by
  obtain ⟨b, hb, hq⟩ := List.mem_flatMap.mp ((List.takeWhile_sublist _).mem h)
  obtain ⟨i, hi, rfl⟩ := List.mem_map.mp hq
  exact ⟨hb, List.mem_range.mp hi⟩

/-- Printing stays within what the compartment can read exactly if a check fails or every
byte it gets to is harmless: memory of nobody is on a heap page or in the readable image,
and so is memory the check did not look at, unless it is the compartment's own. -/
theorem stdout_readable_iff (P : Platform) (bits : P.minChunkBits ≤ 64) (m : OwnershipMap)
    (mem : KernelMemory) (owner : CompartmentOwner) (data size : Nat) :
    (∀ a ∈ Printing.sent (kwritevStdoutProtected P m mem owner data size),
      CompartmentReads P m owner a) ↔
    (StdoutAccepted P m mem owner data size → ∀ q ∈ mem.reached data size,
      (getMonzaOwner P.unit m q.address = .null →
        owner = .null ∨ P.OnHeapPage q.address ∨ P.InReadableImage q.address) ∧
      (q.Skipped P.unit → getMonzaOwner P.unit m q.address = .null ∨
        getMonzaOwner P.unit m q.address = owner ∨ P.InReadableImage q.address)) := by
  have dvd : P.unit ∣ 2 ^ 64 := minOwnershipSize_dvd P.ps bits
  rw [kwritevStdoutProtected_sent]
  by_cases passed : StdoutAccepted P m mem owner data size
  · rw [if_pos (checkStdout_eq_ok_iff.mpr passed), List.forall_mem_map]
    simp only [passed, true_implies]
    refine forall₂_congr fun q hq => ?_
    obtain ⟨hbuffer, hi⟩ := KernelMemory.mem_reached hq
    obtain ⟨a, ha, hread⟩ := KernelMemory.mem_buffers hbuffer
    obtain ⟨hdata, hsize⟩ := KernelMemory.readSpan_lt hread
    obtain ⟨b, hread', accepted⟩ := passed.buffers a ha
    obtain rfl : q.1 = b := Except.ok.inj (hread.symm.trans hread')
    have checked : ¬ q.Skipped P.unit → getMonzaOwner P.unit m q.address = .null ∨
        getMonzaOwner P.unit m q.address = owner := fun seen =>
      accepted.imp (owner_of_validateOwner dvd hdata hsize hi · seen)
        (owner_of_validateOwner dvd hdata hsize hi ·.2 seen)
    unfold CompartmentReads
    constructor
    · rintro (own | ⟨null, heap⟩ | image)
      · exact ⟨fun null => Or.inl (own.symm.trans null), fun _ => Or.inr (Or.inl own)⟩
      · exact ⟨fun _ => Or.inr (Or.inl heap), fun _ => Or.inl null⟩
      · exact ⟨fun _ => Or.inr (Or.inr image), fun _ => Or.inr (Or.inr image)⟩
    · rintro ⟨unowned, skipped⟩
      have known : getMonzaOwner P.unit m q.address = .null ∨
          getMonzaOwner P.unit m q.address = owner ∨ P.InReadableImage q.address := by
        by_cases h : q.Skipped P.unit
        · exact skipped h
        · exact (checked h).imp_right Or.inl
      rcases known with null | own | image
      · rcases unowned null with kernel | heap | image
        · exact Or.inl (null.trans kernel.symm)
        · exact Or.inr (Or.inl ⟨null, heap⟩)
        · exact Or.inr (Or.inr image)
      · exact Or.inl own
      · exact Or.inr (Or.inr image)
  · rw [if_neg fun check => passed (checkStdout_eq_ok_iff.mp check)]
    exact iff_of_true (fun a ha => absurd ha List.not_mem_nil) fun h => absurd h passed

/-- Two neighbouring blocks of different compartments; nobody owns the rest. -/
def neighbours : OwnershipMap :=
  ⟨fun b => { owner := if b = 16 then ⟨1⟩ else if b = 17 then ⟨2⟩ else .null }, fun _ => {}⟩

/-- A megabyte the kernel maps, the lowest page included, with spans in the first block. -/
def memoryWith (buffers : List Buffer) : KernelMemory where
  mapped a := decide (a < 0x100000)
  bytes a := BitVec.ofNat 8 <|
    (buffers.flatMap fun b => [b.data, b.size]).getD ((a - 0x40000) / 8) 0 /
      256 ^ ((a - 0x40000) % 8)

theorem smallPlatform_image {a : Nat} (h : smallPlatform.InReadableImage a) :
    0x1000 ≤ a ∧ a < 0x3000 := by
  obtain ⟨e, he, overlaps, user⟩ := h
  obtain ⟨hlo, hhi⟩ := AddressRange.overlaps_iff.mp overlaps
  simp only [predefinedMap, List.mem_cons, List.not_mem_nil, or_false] at he
  rcases he with rfl | rfl | rfl
  · exact absurd user (by decide)
  · exact ⟨hlo, Nat.lt_trans hhi (by decide)⟩
  · exact ⟨Nat.le_trans (by decide) hlo, Nat.lt_of_lt_of_le hhi (by decide)⟩

/-- One buffer runs from the compartment's block into that of another, the other lies
below the image. Both are printed. -/
theorem stdout_prints_unreadable_memory :
    Printing.sent (kwritevStdoutProtected smallPlatform neighbours
      (memoryWith [⟨0x43fff, 2⟩, ⟨0x500, 1⟩]) ⟨1⟩ 0x40000 2) = [0x43fff, 0x44000, 0x500] ∧
    ¬ CompartmentReads smallPlatform neighbours ⟨1⟩ 0x44000 ∧
    ¬ CompartmentReads smallPlatform neighbours ⟨1⟩ 0x500 := by
  refine ⟨by decide +kernel, ?_, ?_⟩
  · rintro (own | ⟨null, -⟩ | image)
    · exact absurd own (by decide)
    · exact absurd null (by decide)
    · exact absurd (smallPlatform_image image).2 (by decide)
  · rintro (own | ⟨-, x, page, heap⟩ | image)
    · exact absurd own (by decide)
    · have behind := le_of_smallPlatform_heap heap
      change x / 4096 = 0x500 / 4096 at page
      omega
    · exact absurd (smallPlatform_image image).1 (by decide)

/-- A buffer of the compartment's own is printed. -/
theorem stdout_readable_own_buffer :
    Printing.sent (kwritevStdoutProtected smallPlatform neighbours
      (memoryWith [⟨0x40100, 2⟩]) ⟨1⟩ 0x40000 1) = [0x40100, 0x40101] ∧
    ∀ a ∈ Printing.sent (kwritevStdoutProtected smallPlatform neighbours
      (memoryWith [⟨0x40100, 2⟩]) ⟨1⟩ 0x40000 1),
      CompartmentReads smallPlatform neighbours ⟨1⟩ a := by
  refine ⟨by decide +kernel, ?_⟩
  refine (stdout_readable_iff smallPlatform (by decide) neighbours _ ⟨1⟩ 0x40000 1).mpr
    fun _ q hq => ?_
  have reached : (memoryWith [⟨0x40100, 2⟩]).reached 0x40000 1 =
    [(⟨0x40100, 2⟩, 0), (⟨0x40100, 2⟩, 1)] := by decide +kernel
  have own : getMonzaOwner smallPlatform.unit neighbours q.address = ⟨1⟩ := by
    rw [reached, List.mem_cons, List.mem_singleton] at hq
    rcases hq with rfl | rfl
    · decide
    · decide
  exact ⟨fun null => absurd (own.symm.trans null) (by decide), fun _ => Or.inr (Or.inl own)⟩

end Monza
