import Monza.Machine
import Mathlib.Logic.Function.Basic

/-!
# Memory mapping

`mmap` and `munmap` of the C library are `calloc` and `free` of whole pages. The allocator is not
part of the repository: it is a parameter with the properties that the functions rely on. It
rounds a request up to one of its size classes, and what `munmap` compares is this size with the
length of the mapping, rounded up to pages. The two roundings agree only for some lengths.

The contents of the memory and the protection bits, which `mprotect` ignores, are not modelled.
-/

namespace Monza

namespace Mmap

/-- The blocks in use: the number of bytes that were requested for the block at an address. -/
abbrev Heap := Nat → Option Nat

/-- What the functions use of the allocator. -/
structure Snmalloc where
  /-- The size of the blocks that serve a request. -/
  sizeClass : Nat → Nat
  /-- The address of the block for a request, zero if there is none. -/
  place : Heap → Nat → Nat
  externalPointer : Heap → Nat → Nat
  allocSize : Heap → Nat → Nat
  place_fresh : ∀ heap bytes, place heap bytes ≠ 0 → heap (place heap bytes) = none
  le_sizeClass : ∀ heap bytes, place heap bytes ≠ 0 → bytes ≤ sizeClass bytes
  externalPointer_base : ∀ heap address bytes, heap address = some bytes →
    externalPointer heap address = address
  allocSize_base : ∀ heap address bytes, heap address = some bytes →
    allocSize heap address = sizeClass bytes

variable (A : Snmalloc) (ps : PageSize)

/-- `calloc(1, bytes)`. -/
def calloc (heap : Heap) (bytes : Nat) : Nat × Heap :=
  let address := A.place heap bytes
  if address = 0 then (0, heap) else (address, Function.update heap address (some bytes))

def free (heap : Heap) (address : Nat) : Heap := Function.update heap address none

/-- `MAP_ANONYMOUS | MAP_PRIVATE`. -/
def anonymousPrivate : Int := 0x22

/-- `PROT_READ | PROT_WRITE`. -/
def readWrite : Int := 3

def mprotect (address _length : Nat) (_prot : Int) : Int :=
  if !isAlignedBlock ps.bytes address ps.bytes then -1 else 0

/-- The two last parameters of the source have no name and no use. -/
def mmap (heap : Heap) (address length : Nat) (prot flags : Int) : Nat × Heap :=
  if address ≠ 0 then (0, heap)
  else if flags ≠ anonymousPrivate then (0, heap)
  else
    let actualLength := alignedSize ps.bytes length
    let allocation := calloc A heap actualLength
    if mprotect ps allocation.1 actualLength prot = 0 then allocation else (0, allocation.2)

def munmap (heap : Heap) (address length : Nat) : Int × Heap :=
  let actualLength := alignedSize ps.bytes length
  if A.externalPointer heap address ≠ address ∨ A.allocSize heap address ≠ actualLength then
    (-1, heap)
  else if mprotect ps address actualLength readWrite ≠ 0 then (-1, heap)
  else (0, free heap address)

variable {A ps} {heap : Heap} {address length : Nat} {prot : Int}

theorem mprotect_eq_zero_iff : mprotect ps address length prot = 0 ↔ address % ps.bytes = 0 := by
  have whole : ps.bytes % ps.bytes = 0 := Nat.mod_self _
  rw [mprotect, isAlignedBlock]
  by_cases aligned : address % ps.bytes = 0
  · simp [aligned, whole]
  · simp [aligned]

theorem calloc_ne_zero {bytes : Nat} (served : (calloc A heap bytes).1 ≠ 0) :
    heap (calloc A heap bytes).1 = none ∧ bytes ≤ A.sizeClass bytes ∧
      (calloc A heap bytes).2 = Function.update heap (calloc A heap bytes).1 (some bytes) := by
  by_cases none : A.place heap bytes = 0
  · simp [calloc, none] at served
  · rw [calloc, if_neg none]
    exact ⟨A.place_fresh heap bytes none, A.le_sizeClass heap bytes none, rfl⟩

/-- A request that is supported. -/
theorem mmap_anonymous : mmap A ps heap 0 length prot anonymousPrivate =
    if mprotect ps (calloc A heap (alignedSize ps.bytes length)).1
        (alignedSize ps.bytes length) prot = 0 then
      calloc A heap (alignedSize ps.bytes length)
    else (0, (calloc A heap (alignedSize ps.bytes length)).2) := by
  rw [mmap, if_neg (not_not_intro rfl), if_neg (not_not_intro rfl)]

/-- A mapping is an aligned block that was not in use, for the length rounded up to pages. -/
theorem mmap_ne_zero {p : Nat} (mapped : (mmap A ps heap 0 length prot anonymousPrivate).1 = p)
    (nonnull : p ≠ 0) : p % ps.bytes = 0 ∧ heap p = none ∧
      alignedSize ps.bytes length ≤ A.sizeClass (alignedSize ps.bytes length) ∧
      (mmap A ps heap 0 length prot anonymousPrivate).2 =
        Function.update heap p (some (alignedSize ps.bytes length)) := by
  rw [mmap_anonymous] at mapped ⊢
  split at mapped
  next aligned =>
    rw [if_pos aligned]
    subst mapped
    obtain ⟨fresh, large, after⟩ := calloc_ne_zero nonnull
    exact ⟨mprotect_eq_zero_iff.mp aligned, fresh, large, after⟩
  next => exact absurd mapped.symm nonnull

/-- What `munmap` does with an aligned block in use depends on its size class only. -/
theorem munmap_of_live {p bytes : Nat} (aligned : p % ps.bytes = 0) (live : heap p = some bytes) :
    munmap A ps heap p length =
      if A.sizeClass bytes = alignedSize ps.bytes length then (0, free heap p) else (-1, heap) := by
  have base := A.externalPointer_base heap p bytes live
  have size := A.allocSize_base heap p bytes live
  have accessible : mprotect ps p (alignedSize ps.bytes length) readWrite = 0 :=
    mprotect_eq_zero_iff.mpr aligned
  rw [munmap, base, size, accessible]
  by_cases same : A.sizeClass bytes = alignedSize ps.bytes length
  · simp [same]
  · simp [same]

/-- Size classes like the allocator's: four for each power of two up to 64 KiB, at a distance of
at least 16 bytes, and the powers of two above. -/
def classOf (bytes : Nat) : Nat :=
  let power := 2 ^ Nat.log2 (bytes - 1)
  let step := max 16 (power / 4)
  if bytes ≤ 16 then 16
  else if bytes ≤ 65536 then ((bytes - 1) / step + 1) * step
  else 2 * power

theorem le_classOf (bytes : Nat) : bytes ≤ classOf bytes := by
  rw [classOf]
  split
  next small => exact small
  next large =>
    split
    next =>
      have below := Nat.lt_div_mul_add (a := bytes - 1)
        (b := max 16 (2 ^ Nat.log2 (bytes - 1) / 4)) (by omega)
      rw [Nat.add_mul, Nat.one_mul]
      omega
    next =>
      have below := Nat.lt_log2_self (n := bytes - 1)
      rw [Nat.pow_succ] at below
      omega

/-- One block of memory at 1 GiB, with these size classes. -/
def oneBlock : Snmalloc where
  sizeClass := classOf
  place heap _ := if heap 0x40000000 = none then 0x40000000 else 0
  externalPointer _ address := address
  allocSize heap address := ((heap address).map classOf).getD 0
  place_fresh heap bytes served := by
    by_cases free : heap 0x40000000 = none
    · rw [if_pos free]
      exact free
    · rw [if_neg free] at served
      exact absurd rfl served
  le_sizeClass _ bytes _ := le_classOf bytes
  externalPointer_base _ _ _ _ := rfl
  allocSize_base heap address bytes live := by
    rw [live]
    rfl

end Mmap

open Mmap in
/-- Unmapping a mapping with its own length, at any time while its block is in use, frees exactly
this block if the length rounded up to pages is a size class of the allocator. It fails for every
other length, and the block stays in use. -/
theorem munmap_inverts_mmap_iff {A : Snmalloc} {ps : PageSize} {heap later : Heap}
    {length p : Nat} {prot : Int}
    (mapped : (mmap A ps heap 0 length prot anonymousPrivate).1 = p) (nonnull : p ≠ 0)
    (live : later p = (mmap A ps heap 0 length prot anonymousPrivate).2 p) :
    p % ps.bytes = 0 ∧
    ((munmap A ps later p length).1 = 0 ∧ (munmap A ps later p length).2 = free later p ↔
      A.sizeClass (alignedSize ps.bytes length) = alignedSize ps.bytes length) ∧
    (A.sizeClass (alignedSize ps.bytes length) ≠ alignedSize ps.bytes length →
      munmap A ps later p length = (-1, later)) := by
  obtain ⟨aligned, -, -, after⟩ := mmap_ne_zero mapped nonnull
  rw [after, Function.update_self] at live
  rw [munmap_of_live aligned live]
  refine ⟨aligned, ?_, fun other => if_neg other⟩
  by_cases same : A.sizeClass (alignedSize ps.bytes length) = alignedSize ps.bytes length
  · simp [same]
  · simp [same]

open Mmap in
/-- A mapping of eight small pages is unmapped, since 32 KiB are a size class. -/
theorem munmap_eight_pages :
    (mmap oneBlock .kib4 (fun _ => none) 0 32768 readWrite anonymousPrivate).1 = 0x40000000 ∧
    (munmap oneBlock .kib4
      (mmap oneBlock .kib4 (fun _ => none) 0 32768 readWrite anonymousPrivate).2
      0x40000000 32768).1 = 0 := by
  have mapped :
      (mmap oneBlock .kib4 (fun _ => none) 0 32768 readWrite anonymousPrivate).1 = 0x40000000 := by
    decide +kernel
  obtain ⟨-, inverts, -⟩ := munmap_inverts_mmap_iff mapped (by decide) rfl
  exact ⟨mapped, (inverts.mpr (by decide +kernel)).1⟩

open Mmap in
/-- A mapping of nine small pages is a block of 40 KiB, which cannot be unmapped. -/
theorem munmap_nine_pages_fails :
    (mmap oneBlock .kib4 (fun _ => none) 0 36864 readWrite anonymousPrivate).1 = 0x40000000 ∧
    (munmap oneBlock .kib4
      (mmap oneBlock .kib4 (fun _ => none) 0 36864 readWrite anonymousPrivate).2
      0x40000000 36864).1 = -1 ∧
    (munmap oneBlock .kib4
      (mmap oneBlock .kib4 (fun _ => none) 0 36864 readWrite anonymousPrivate).2
      0x40000000 36864).2 0x40000000 = some 36864 := by
  decide +kernel

end Monza
