import Monza.Sev.Acceptance
import Monza.Lib.Transition

/-!
# Memory that is shared with the host

Two regions are visible to the host. Blocks for the communication with the hypervisor are
taken from the memory above the virtual top of memory, which is made visible page by page: by
requests to the host, one for each frame, that go through the MSR which otherwise holds the
address of the GHCB. The ring buffers lie in a range of fixed size just behind the last heap
range, whatever there is.
-/

namespace Monza.Sev

open Outcome Transition

def ioSharedMemorySize : Nat := 64 * 1024 * 1024

/-- The `io_shared_range` that `setup_hypervisor_stage2_sev` installs. -/
def setupHypervisorStage2Sev (heap : HeapRanges) : Span :=
  ⟨u64 (heap.largestValidAddress + 1), ioSharedMemorySize⟩

/-- The static variables of `allocate_visible_sev_vtom`. -/
structure VisibleMemory where
  currentlySharedAvailable : Span
  remainingVtomOffset : Nat
  deriving DecidableEq, Repr

def VisibleMemory.initial : VisibleMemory := ⟨⟨0, 0⟩, 0⟩

/-- The GHCB MSR, and its value at every exit to the host so far. -/
structure GhcbChannel where
  msr : BitVec 64
  exits : List (BitVec 64)
  deriving DecidableEq, Repr

/-- What the host leaves in the MSR, after the earlier exits and for the value it finds. -/
abbrev Host := List (BitVec 64) → BitVec 64 → BitVec 64

def vmgexit (host : Host) (c : GhcbChannel) : GhcbChannel :=
  ⟨host c.exits c.msr, c.exits ++ [c.msr]⟩

/-- `SevGhcbMsrPageStateRequest`. -/
def pageStateRequest (guestPhysicalPageNumber : Nat) (isShared : Bool) : BitVec 64 :=
  0x014#64 ||| BitVec.ofNat 64 guestPhysicalPageNumber <<< 12 |||
    (if isShared then 0x002#64 else 0x001#64) <<< 52

/-- `SevGhcbMsrPageStateResponse::success`. -/
def pageStateSuccess (response : BitVec 64) : Bool :=
  response &&& 0xfff#64 == 0x015#64 && response >>> 32 == 0#64

/-- One pass of the loop over the frames. The abort restores the MSR first. -/
def switchFrame (host : Host) (isShared : Bool) (frameNumber : Nat) (c : GhcbChannel) :
    Result GhcbChannel :=
  let c := vmgexit host { c with msr := pageStateRequest frameNumber isShared }
  if !pageStateSuccess c.msr then .error .kabort else .ok c

/-- `update_state_for_range`, with the pages that are accepted again. -/
def updateStateForRange (host : Host) (range : AddressRange) (isShared : Bool)
    (c : GhcbChannel) : Result (List Nat × GhcbChannel) := do
  let frameNumberStart := range.start / hvPageSize
  let frameNumberEnd := range.stop / hvPageSize
  let original := c.msr
  let c ← loop .diverge (fun frameNumber => decide (frameNumber < frameNumberEnd)) (· + 1)
    (switchFrame host isShared) (frameNumberEnd + 1) frameNumberStart c
  let c := { c with msr := original }
  let accepted ← if !isShared then acceptPrivateMemory range else .ok []
  .ok (accepted, c)

section Definitions

variable (ps : PageSize) (aboveVtom : Span) (host : Host)

/-- One pass of the loop: make another page visible. -/
def expandVisible (s : VisibleMemory × GhcbChannel) : Result (VisibleMemory × GhcbChannel) :=
  let available := s.1.currentlySharedAvailable
  if u64 (s.1.remainingVtomOffset + ps.bytes) > aboveVtom.size then .error .kabort
  else do
    let extraRange : Span := ⟨aboveVtom.data + s.1.remainingVtomOffset, ps.bytes⟩
    let (_, c) ← updateStateForRange host (.ofSpan extraRange) true s.2
    let availableStart := if available.data = 0 then extraRange.data else available.data
    .ok (⟨⟨availableStart, available.size + extraRange.size⟩,
      s.1.remainingVtomOffset + extraRange.size⟩, c)

/-- Expand until `size` bytes are available. -/
def expandUntil (size : Nat) :
    Nat → VisibleMemory × GhcbChannel → Result (VisibleMemory × GhcbChannel)
  | 0, _ => .error .diverge
  | fuel + 1, s =>
    if s.1.currentlySharedAvailable.size < size then
      expandVisible ps aboveVtom host s >>= expandUntil size fuel
    else .ok s

/-- `allocate_visible_sev_vtom`, under its lock. The budget is one more than the pages above the
virtual top of memory. -/
def allocateVisibleSevVtom (size : Nat) (s : VisibleMemory × GhcbChannel) :
    Result (Span × VisibleMemory × GhcbChannel) := do
  let size := alignUp size hvPageSize
  let (s, c) ← expandUntil ps aboveVtom host size (aboveVtom.size / ps.bytes + 2) s
  .ok (⟨s.currentlySharedAvailable.data, size⟩,
    { s with currentlySharedAvailable :=
        ⟨s.currentlySharedAvailable.data + size, s.currentlySharedAvailable.size - size⟩ }, c)

/-- A call that returned. The MSR and the exits of others before it are arbitrary. -/
structure VisibleUse where
  size : Nat
  before : GhcbChannel
  block : Span
  after : GhcbChannel

/-- Calls one after the other, as under the lock. -/
def allocates (s : VisibleMemory) (use : VisibleUse) (t : VisibleMemory) : Prop :=
  allocateVisibleSevVtom ps aboveVtom host use.size (s, use.before) =
    .ok (use.block, t, use.after)

instance (s t : VisibleMemory) (use : VisibleUse) :
    Decidable (allocates ps aboveVtom host s use t) := inferInstanceAs (Decidable (_ = _))

end Definitions

variable {ps : PageSize} {aboveVtom : Span} {host : Host} {s t : VisibleMemory} {c : GhcbChannel}

section Pool

/-- What is available is the end of what has been made visible. -/
structure InPool (aboveVtom : Span) (s : VisibleMemory) : Prop where
  offset : s.remainingVtomOffset ≤ aboveVtom.size
  place : (s.currentlySharedAvailable = ⟨0, 0⟩ ∧ s.remainingVtomOffset = 0) ∨
    (aboveVtom.data ≤ s.currentlySharedAvailable.data ∧
      s.currentlySharedAvailable.stop = aboveVtom.data + s.remainingVtomOffset)

theorem InPool.initial : InPool aboveVtom .initial := ⟨Nat.zero_le _, .inl ⟨rfl, rfl⟩⟩

/-- The frames of a range are requested one by one, as long as the host grants them. -/
theorem updateStateForRange_sat (range : AddressRange) :
    Sat (updateStateForRange host range true c) (fun _ => True) (· = .kabort) := by
  have budget : range.stop / hvPageSize - range.start / hvPageSize <
      range.stop / hvPageSize + 1 := Nat.lt_succ_of_le (Nat.sub_le _ _)
  refine (loop_total (fun _ _ => True) (range.stop / hvPageSize - ·) ?_ trivial budget).bind
    fun _ _ => trivial
  intro frame c _ more
  have below := of_decide_eq_true more
  exact ⟨by omega, Sat.guard rfl fun _ => trivial⟩

theorem expandVisible_sat (nonnull : aboveVtom.data ≠ 0) (physical : aboveVtom.stop ≤ 2 ^ 52)
    (pool : InPool aboveVtom s) :
    Sat (expandVisible ps aboveVtom host (s, c))
      (fun r => InPool aboveVtom r.1 ∧
        r.1.remainingVtomOffset = s.remainingVtomOffset + ps.bytes) (· = .kabort) := by
  have page : ps.bytes ≤ 2 ^ 21 := by cases ps <;> decide
  have offset := pool.offset
  rw [Span.stop] at physical
  refine Sat.guard rfl fun room => (updateStateForRange_sat _).bind fun _ _ => ?_
  rw [u64_of_lt (by simp only; omega)] at room
  refine ⟨⟨by simp only at room ⊢; omega, .inr ?_⟩, rfl⟩
  obtain ⟨empty, none⟩ | ⟨start, stop⟩ := pool.place
  · simp only [empty, none, if_pos, Span.stop]
    omega
  · simp only [Span.stop] at stop ⊢
    rw [if_neg (by omega)]
    omega

/-- The budget is enough, and every pass keeps to the pool. -/
theorem expandUntil_sat (nonnull : aboveVtom.data ≠ 0) (physical : aboveVtom.stop ≤ 2 ^ 52)
    (pool : InPool aboveVtom s) {size fuel : Nat}
    (budget : aboveVtom.size < s.remainingVtomOffset + ps.bytes * fuel) :
    Sat (expandUntil ps aboveVtom host size (fuel + 1) (s, c))
      (fun r => InPool aboveVtom r.1 ∧ size ≤ r.1.currentlySharedAvailable.size)
      (· = .kabort) := by
  induction fuel generalizing s c with
  | zero => exact absurd pool.offset (by omega)
  | succ fuel ih =>
      rw [expandUntil]
      split
      next =>
        refine (expandVisible_sat nonnull physical pool).bind ?_
        rintro ⟨t, d⟩ ⟨pool, offset⟩
        refine ih pool ?_
        rw [offset]
        rw [Nat.mul_succ] at budget
        omega
      next enough => exact ⟨pool, Nat.le_of_not_lt enough⟩

/-- A block without bytes, or one within the memory above the virtual top of memory. -/
def Block (aboveVtom block : Span) : Prop :=
  block.size = 0 ∨ (aboveVtom.data ≤ block.data ∧ block.stop ≤ aboveVtom.stop)

theorem allocateVisibleSevVtom_sat (nonnull : aboveVtom.data ≠ 0)
    (physical : aboveVtom.stop ≤ 2 ^ 52) (pool : InPool aboveVtom s) (size : Nat) :
    Sat (allocateVisibleSevVtom ps aboveVtom host size (s, c))
      (fun r => Block aboveVtom r.1 ∧ InPool aboveVtom r.2.1) (· = .kabort) := by
  have budget : aboveVtom.size <
      s.remainingVtomOffset + ps.bytes * (aboveVtom.size / ps.bytes + 1) :=
    Nat.lt_of_lt_of_le (Nat.lt_mul_div_succ _ ps.bytes_pos) (Nat.le_add_left _ _)
  refine (expandUntil_sat nonnull physical pool budget).bind ?_
  rintro ⟨t, d⟩ ⟨pool, enough⟩
  simp only at pool enough
  have offset := pool.offset
  obtain ⟨empty, none⟩ | ⟨start, stop⟩ := pool.place
  · have zero : alignUp size hvPageSize = 0 := by
      rw [empty] at enough
      exact Nat.le_zero.mp enough
    refine ⟨.inl zero, pool.offset, .inl ⟨?_, none⟩⟩
    simp only [empty, zero]
  · simp only [Span.stop] at stop
    refine ⟨.inr ⟨start, ?_⟩, offset, .inr ⟨Nat.le_trans start (Nat.le_add_right _ _), ?_⟩⟩
    · simp only [Span.stop]
      omega
    · simp only [Span.stop]
      omega

/-- Every block that is ever returned lies in the pool. -/
theorem block_of_run (nonnull : aboveVtom.data ≠ 0) (physical : aboveVtom.stop ≤ 2 ^ 52)
    {uses : List VisibleUse} (run : Run (allocates ps aboveVtom host) s uses t)
    (pool : InPool aboveVtom s) : ∀ use ∈ uses, Block aboveVtom use.block := by
  induction run with
  | nil => exact fun _ h => absurd h List.not_mem_nil
  | cons first _ ih =>
      obtain ⟨block, pool⟩ := (allocateVisibleSevVtom_sat nonnull physical pool _).of_ok first
      intro use mem
      rcases List.mem_cons.mp mem with rfl | mem
      · exact block
      · exact ih pool use mem

end Pool

/-- The range of the ring buffers is apart from the heap, from the memory above the virtual top of
memory and from all blocks allocated there. -/
structure RegionsDisjoint (ps : PageSize) (m : SevMemory) : Prop where
  heap : ∀ r ∈ m.heap.ranges, (setupHypervisorStage2Sev m.heap).Disjoint r
  above : (setupHypervisorStage2Sev m.heap).Disjoint m.aboveVtomMemoryRange
  blocks : ∀ host uses s, Run (allocates ps m.aboveVtomMemoryRange host) .initial uses s →
    ∀ use ∈ uses, (setupHypervisorStage2Sev m.heap).Disjoint use.block

/-- With a virtual top of memory, the regions are apart exactly if the private memory of the map
ends so far below it that the ring buffers fit in between. -/
theorem shared_regions_disjoint_iff {heapStart vtom : Nat} {map : MemoryMap} {m : SevMemory}
    (used : vtom ≠ 0) (h : setupHeapSev ps heapStart vtom map = .ok m) :
    RegionsDisjoint ps m ↔
      lastPrivateEnd ps vtom map.entries + ioSharedMemorySize ≤ vtom := by
  obtain ⟨top, s, validated, run, above, -, rfl⟩ := setupHeapSev_eq_ok h
  have null : map[0].isNull = false := by
    by_contra null
    rw [setupEntries_of_null (by simpa using null)] at run
    cases run
    exact above used rfl
  have progress := setupEntries_progress top null run
  obtain ⟨start, nonempty, entry, mem, -, inside⟩ := progress.carved_of_nonempty (above used)
  obtain ⟨front, ranges⟩ := s.heap.exists_ranges_eq
  have physical : s.aboveVtomMemoryRange.stop ≤ 2 ^ 52 :=
    Nat.le_trans inside (Nat.le_trans (endAddress_le_of_setup run entry mem) (by decide))
  have last := progress.placed s.heap.last (by simp [ranges])
  have below := last.below used
  have bound := Nat.le_trans last.bound progress.bound
  have data : (setupHypervisorStage2Sev s.heap).data = s.heap.last.stop := by
    rw [setupHypervisorStage2Sev, u64_largestValidAddress, u64_of_lt (by omega)]
  have stop : (setupHypervisorStage2Sev s.heap).stop = s.heap.last.stop + ioSharedMemorySize :=
    congrArg (· + ioSharedMemorySize) data
  rw [← progress.stop]
  constructor
  · intro apart
    have ordered := apart.above.stop_le nonempty (by rw [data, start]; exact below)
    rwa [stop, start] at ordered
  · intro room
    refine ⟨fun r hr => ?_, ?_, fun host uses t run use mem => ?_⟩
    · refine Span.disjoint_of_ge ?_
      rw [data]
      exact progress.stop_le_last r hr
    · refine Span.disjoint_of_le ?_
      rwa [stop, start]
    · have nonnull : s.aboveVtomMemoryRange.data ≠ 0 := by rwa [start]
      rcases block_of_run nonnull physical run .initial use mem with empty | ⟨inside, -⟩
      · intro x _ _ lo hi
        rw [Span.stop, empty] at hi
        omega
      · refine Span.disjoint_of_le (Nat.le_trans ?_ inside)
        rwa [stop, start]

/-- Private memory up to `0x10c000`, and another entry from `0x5000000` on. -/
def spacedMap : MemoryMap :=
  (emptyMap.setIfInBounds 0 ⟨0x100, 12, 0⟩).setIfInBounds 1 ⟨0x5000, 4, 0⟩

theorem shared_regions_disjoint_spaced :
    ∃ m, setupHeapSev .kib4 0x100800 0x5000000 spacedMap = .ok m ∧ RegionsDisjoint .kib4 m := by
  have run : setupHeapSev .kib4 0x100800 0x5000000 spacedMap = .ok
      ⟨⟨⟨0x100800, 0xb800⟩, []⟩, ⟨0x5000000, 0x4000⟩, List.range' 0x101000 11 0x1000⟩ := by
    decide +kernel
  exact ⟨_, run, (shared_regions_disjoint_iff (by decide) run).mpr (by decide +kernel)⟩

/-- A host that grants everything. -/
def grantingHost : Host := fun _ _ => 0x015#64

/-- The first visible block is also the start of the ring buffers. -/
theorem visible_block_in_io_shared_range :
    ∃ m, setupHeapSev .kib4 0x100800 0x10c000 sampleMap = .ok m ∧
      (∃ use s, Run (allocates .kib4 m.aboveVtomMemoryRange grantingHost) .initial [use] s ∧
        use.size = hvPageSize ∧ use.block = ⟨0x10c000, hvPageSize⟩) ∧
      setupHypervisorStage2Sev m.heap = ⟨0x10c000, ioSharedMemorySize⟩ ∧
      ¬ RegionsDisjoint .kib4 m := by
  have run : setupHeapSev .kib4 0x100800 0x10c000 sampleMap = .ok
      ⟨⟨⟨0x100800, 0x7800⟩, [⟨0x10a000, 0x2000⟩]⟩, ⟨0x10c000, 0x2000⟩,
        List.range' 0x101000 11 0x1000⟩ := by decide +kernel
  let use : VisibleUse := ⟨hvPageSize, ⟨0x400000#64, []⟩, ⟨0x10c000, hvPageSize⟩,
    ⟨0x400000#64, [pageStateRequest 0x10c true]⟩⟩
  have call : allocates .kib4 ⟨0x10c000, 0x2000⟩ grantingHost .initial use
      ⟨⟨0x10d000, 0⟩, 0x1000⟩ := by
    decide +kernel
  refine ⟨_, run, ⟨use, _, Run.single.mpr call, rfl, rfl⟩, by decide +kernel, ?_⟩
  intro apart
  exact apart.above 0x10c000 (by decide +kernel) (by decide +kernel) (by decide) (by decide)

end Monza.Sev
