import Monza.Boot.InterruptStacks
import Monza.Compartment.Isolation
import Monza.HeapGeneric

/-!
# The platform that the kernel sets up

Compartments are created on a platform whose maps are aligned and, like its heap, within the reach
of a four-level table. These are no assumptions about a kernel that has started: the maps have come
through the checks of `create_kernel_page_table`, and the heap is cut out of the memory map of the
firmware. What is left to assume is that the machine has some memory and none above 256 TiB, and
that the interrupt stacks were allocated from the heap.
-/

namespace Monza

open Outcome

/-- A kernel behind `setup_heap_generic`, `setup_gdt` and `create_kernel_page_table`. -/
structure BootedKernel where
  ps : PageSize
  minChunkBits : Nat
  allocator : NodeAllocator
  layout : ImageLayout
  table : List E820Entry
  heap : HeapRanges
  interrupts : InterruptSetup
  localApicMapping : Nat
  ioSharedRange : Span
  before : PagetableStore
  kernelPagetable : Nat
  after : PagetableStore
  heapSetup : setupHeapGeneric ps layout.heapStart table = .ok heap
  stackSetup : ∃ numCores gdt perCoreTss block memory,
    (0 < numCores ∧ numCores ≤ maxCoreCount) ∧
    interrupts = .setupGdt ps numCores gdt perCoreTss block memory ∧
    ∀ a, block ≤ a → a < block + InterruptSetup.allocationSize ps numCores →
      heap.isHeapAddress a = true
  tableSetup : createKernelPageTable ps allocator
    ⟨layout, localApicMapping, ioSharedRange, heap, [interrupts.map]⟩ before =
      .ok (kernelPagetable, after)
  memory : usableEntries table ≠ []
  reach : ∀ e ∈ usableEntries table, e.endAddress ≤ 2 ^ 48

/-- The checks of the kernel initialiser are what is needed of an entry in reach. -/
theorem MapEntry.Fits.of_checked {ps : PageSize} {e : MapEntry}
    (checked : e.range.start % ps.bytes = 0 ∧ sub64 e.range.stop e.range.start % ps.bytes = 0)
    (ordered : e.range.start ≤ e.range.stop) (bound : e.range.stop ≤ 2 ^ 48) : e.Fits ps := by
  obtain ⟨aligned, size⟩ := checked
  rw [sub64_of_le (Nat.lt_of_le_of_lt bound (by decide)) ordered] at size
  refine ⟨ordered, aligned, ?_, bound⟩
  rw [← Nat.add_sub_of_le ordered, Nat.add_mod, aligned, size]
  rfl

/-- Both maps have come through the kernel initialiser. -/
theorem createKernelPageTable_checked {ps : PageSize} {A : NodeAllocator} {boot : BootMap}
    {s t : PagetableStore} {root : Nat} (run : createKernelPageTable ps A boot s = .ok (root, t)) :
    ∀ e ∈ predefinedMap ps boot.layout ++ boot.interruptStackMap,
      e.range.start % ps.bytes = 0 ∧ sub64 e.range.stop e.range.start % ps.bytes = 0 := by
  obtain ⟨⟨node, s₁⟩, -, run⟩ := bind_eq_ok.mp run
  obtain ⟨s₂, predefined, run⟩ := bind_eq_ok.mp run
  obtain ⟨s₃, -, run⟩ := ite_bind_eq_ok.mp run
  obtain ⟨s₄, -, run⟩ := bind_eq_ok.mp run
  obtain ⟨s₅, -, run⟩ := ite_bind_eq_ok.mp run
  obtain ⟨s₆, -, run⟩ := bind_eq_ok.mp run
  obtain ⟨s₇, interruptStacks, -⟩ := bind_eq_ok.mp run
  rw [List.forall_mem_append]
  exact ⟨kernelInitializerFromMap_aligned predefined,
    kernelInitializerFromMap_aligned interruptStacks⟩

namespace BootedKernel

variable (K : BootedKernel)

/-- The image ends and the ranges of the heap end within reach. -/
theorem bounds_le : ∀ b ∈ boundsOf K.ps K.layout.heapStart (usableEntries K.table),
    b.1 < b.2 ∧ b.2 ≤ 2 ^ 48 := by
  intro b mem
  refine ⟨(setupHeapGeneric_eq_ok K.heapSetup).2 b mem, ?_⟩
  have reach := K.reach
  cases entries : usableEntries K.table with
  | nil =>
      rw [entries] at mem
      exact absurd mem List.not_mem_nil
  | cons entry rest =>
      rw [entries] at mem reach
      obtain ⟨first, others⟩ := List.forall_mem_cons.mp reach
      obtain rfl | mem := List.mem_cons.mp mem
      · exact Nat.le_trans (alignDown_le _ _) first
      · obtain ⟨e, he, rfl⟩ := List.mem_map.mp mem
        exact Nat.le_trans (alignDown_le _ _) (others e he)

theorem heapStart_lt : K.layout.heapStart < 2 ^ 48 := by
  obtain ⟨entry, rest, entries⟩ := List.exists_cons_of_ne_nil K.memory
  obtain ⟨less, bound⟩ := K.bounds_le (K.layout.heapStart, alignDown entry.endAddress K.ps.bytes)
    (by rw [entries]; exact List.mem_cons_self)
  exact Nat.lt_of_lt_of_le less bound

theorem heapBelow : K.heap.Below (2 ^ 48) := by
  have stops : ∀ r ∈ K.heap.ranges, r.stop ≤ 2 ^ 48 := by
    rw [(setupHeapGeneric_eq_ok K.heapSetup).1, forall_ranges_iff (Nat.zero_le _)]
    intro b mem
    obtain ⟨less, bound⟩ := K.bounds_le b mem
    rwa [rangeOf_stop less]
  intro a heap
  obtain ⟨r, mem, -, inside⟩ := (HeapRanges.isHeapAddress_iff fun r mem =>
    Nat.lt_of_le_of_lt (stops r mem) (by decide)).mp heap
  exact Nat.lt_of_lt_of_le inside (stops r mem)

/-- The interrupt stacks are in the heap, so they are in reach as well. -/
theorem interrupts_fit : K.interrupts.map.range.start ≤ K.interrupts.map.range.stop ∧
    K.interrupts.map.range.stop ≤ 2 ^ 48 := by
  obtain ⟨numCores, gdt, perCoreTss, block, memory, cores, same, inHeap⟩ := K.stackSetup
  rw [same]
  change block ≤ u64 (block + InterruptSetup.allocationSize K.ps numCores) ∧
    u64 (block + InterruptSetup.allocationSize K.ps numCores) ≤ 2 ^ 48
  have stack : 0 < numCores * interruptStackSize := Nat.mul_pos cores.1 (by decide)
  have size : numCores * interruptStackSize ≤ InterruptSetup.allocationSize K.ps numCores :=
    InterruptSetup.le_allocationSize cores.2
  have last := K.heapBelow (block + InterruptSetup.allocationSize K.ps numCores - 1)
    (inHeap _ (by omega) (by omega))
  rw [u64_of_lt (by omega)]
  exact ⟨Nat.le_add_right _ _, by omega⟩

theorem fits : ∀ e ∈ predefinedMap K.ps K.layout ++ [K.interrupts.map], e.Fits K.ps := by
  have checked := createKernelPageTable_checked K.tableSetup
  have image := K.heapStart_lt
  have writable := K.layout.writableAfterStart
  have heap := K.layout.heapAfterWritable
  have page : 2 ^ 48 % K.ps.bytes = 0 := by cases K.ps <;> decide
  have up : alignUp K.layout.heapStart K.ps.bytes ≤ 2 ^ 48 :=
    alignUp_le_of_mod K.ps.bytes_pos page (Nat.le_of_lt image)
  intro e mem
  refine .of_checked (checked e mem) ?_ ?_
  all_goals
    simp only [predefinedMap, List.cons_append, List.nil_append, List.mem_cons, List.not_mem_nil,
      or_false] at mem
    obtain rfl | rfl | rfl | rfl := mem
  · simp
  · simp
  · simp [AddressRange.alignUpEnd]
  · exact K.interrupts_fit.1
  · rw [AddressRange.ofBounds_stop]
    omega
  · rw [AddressRange.ofBounds_stop]
    omega
  · rw [AddressRange.alignUpEnd, AddressRange.ofBounds_stop, AddressRange.ofBounds_start,
      AddressRange.ofBounds_stop, Nat.max_eq_right heap]
    omega
  · exact K.interrupts_fit.2

/-- The platform on which the compartments are created. -/
def platform : Platform where
  ps := K.ps
  minChunkBits := K.minChunkBits
  allocator := K.allocator
  layout := K.layout
  interruptStacks := K.interrupts.map.range
  heap := K.heap
  kernelPagetable := K.kernelPagetable
  fits := by
    obtain ⟨numCores, gdt, perCoreTss, block, memory, -, same, -⟩ := K.stackSetup
    have map : (⟨K.interrupts.map.range, .forceKernelWrite⟩ : MapEntry) = K.interrupts.map := by
      rw [same]
      rfl
    rw [map]
    exact K.fits
  heapBelow := K.heapBelow

/-- One core, and RAM up to 1 MiB. -/
example : ∃ K : BootedKernel, K.platform = smallPlatform := by
  have tables : ((createKernelPageTable .kib4 .bump
      ⟨smallPlatform.layout, 0, ⟨0, 0⟩, smallPlatform.heap,
        [(InterruptSetup.setupGdt .kib4 1 .initial 0x8000 0x10000 fun _ => 0).map]⟩
      ⟨fun _ _ => .null, []⟩).toOption.map (·.1)) = some 0x1000 := by
    decide +kernel
  obtain ⟨⟨root, after⟩, created, rfl⟩ := Option.map_eq_some_iff.mp tables
  refine ⟨⟨.kib4, 14, .bump, smallPlatform.layout, [⟨0x1000, 0xff000, e820TypeRam⟩],
    smallPlatform.heap, _, 0, ⟨0, 0⟩, _, _, after, by decide +kernel,
    ⟨1, .initial, 0x8000, 0x10000, fun _ => 0, by decide, rfl, fun a above below => ?_⟩,
    toOption_eq_some.mp created, by decide, by decide⟩, rfl⟩
  have size : InterruptSetup.allocationSize .kib4 1 = 0x10000 := by decide
  rw [size] at below
  simp [smallPlatform, HeapRanges.isHeapAddress, AddressRange.overlaps_iff, AddressRange.ofSpan,
    u64]
  omega

end BootedKernel

end Monza
