import Monza.Pagetable.Bump
import Monza.Sev.Acceptance
import Monza.Sev.SharedMemory

/-!
# The kernel table under SEV

`startcc` sets up the heap, places the ring buffers behind it, and builds the kernel
table from the image, the heap, the ring buffers, the interrupt stacks, the memory above
the virtual top of memory and three pages that the loader leaves below the image. The
table is complete with large pages, as long as the ring buffers end below `2 ^ 48`. With
small pages the range for the loader's pages ends before the last of them.
-/

namespace Monza.Sev

open Outcome

/-- `IMAGE_START` of the linker script, where `__elf_start` is. -/
def imageStart : Nat := 0x600000

def sevSecretPageAddress : Nat := 0x301000

def unmeasuredLoaderDataAddress : Nat := 0x302000

def sevVmsaSettingsAddress : Nat := 0x303000

/-- `EXTRA_DATA_RANGE`. -/
def extraDataRange (ps : PageSize) : AddressRange :=
  (AddressRange.ofBounds sevSecretPageAddress sevVmsaSettingsAddress).alignBroaden ps.bytes

/-- What `create_kernel_page_table` reads. There is no local APIC, since `setup_cores_sev` does
not look for one. -/
def sevBootMap (layout : ImageLayout) (heap : HeapRanges) (interruptStacks : AddressRange) :
    BootMap where
  layout := layout
  localApicMapping := 0
  ioSharedRange := setupHypervisorStage2Sev heap
  heap := heap
  interruptStackMap := [⟨interruptStacks, .forceKernelWrite⟩]

section Definitions

variable (ps : PageSize) (A : NodeAllocator)

def setupPagetableSev (boot : BootMap) (aboveVtom : Span) (s : PagetableStore) :
    Result (Nat × PagetableStore) := do
  let (kernelPagetable, s) ← createKernelPageTable ps A boot s
  let s ←
    if aboveVtom.size ≠ 0 then
      addToKernelPagetable ps A kernelPagetable aboveVtom.data aboveVtom.size .kernelWrite s
    else .ok s
  let s ← addToKernelPagetable ps A kernelPagetable (extraDataRange ps).start
    (extraDataRange ps).size .kernelRead s
  .ok (kernelPagetable, s)

/-- `startcc` until the table is installed. The interrupt stacks are what the allocator answers. -/
def startcc (layout : ImageLayout) (vtom : Nat) (map : MemoryMap) (interruptStacks : AddressRange)
    (s : PagetableStore) : Result (SevMemory × Nat × PagetableStore) := do
  let m ← setupHeapSev ps layout.heapStart vtom map
  if m.heap.first.size = 0 then .error .kabort
  else do
    let (kernelPagetable, s) ← setupPagetableSev ps A
      (sevBootMap layout m.heap interruptStacks) m.aboveVtomMemoryRange s
    .ok (m, kernelPagetable, s)

/-- A map entry as a call of `add_to_kernel_pagetable`. -/
def entryCall (e : MapEntry) : Nat × Nat × PagetablePermission :=
  (e.range.start, sub64 e.range.stop e.range.start, e.perm)

def spanCall (r : Span) : Nat × Nat × PagetablePermission := (r.data, r.size, .kernelWrite)

def rangeCall (r : AddressRange) (perm : PagetablePermission) : Nat × Nat × PagetablePermission :=
  (r.start, r.size, perm)

/-- The calls of `add_to_kernel_pagetable`, in order. -/
def sevCalls (layout : ImageLayout) (m : SevMemory) (interruptStacks : AddressRange) :
    List (Nat × Nat × PagetablePermission) :=
  let firstHeapRange := (AddressRange.ofSpan m.heap.first).alignUpStart ps.bytes
  (predefinedMap ps layout).map entryCall ++
    [rangeCall (.ofSpan (setupHypervisorStage2Sev m.heap)) .kernelWrite] ++
    (if ¬ firstHeapRange.empty = true then [rangeCall firstHeapRange .kernelWrite] else []) ++
    m.heap.additional.map spanCall ++
    [entryCall ⟨interruptStacks, .forceKernelWrite⟩] ++
    (if m.aboveVtomMemoryRange.size ≠ 0 then [spanCall m.aboveVtomMemoryRange] else []) ++
    [rangeCall (extraDataRange ps) .kernelRead]

end Definitions

variable {ps : PageSize} {A : NodeAllocator} {layout : ImageLayout} {m : SevMemory}
variable {interruptStacks : AddressRange} {s : PagetableStore}

theorem kernelInitializerFromMap_eq {root : Nat} {map : List MapEntry} :
    kernelInitializerFromMap ps A root map s = addCalls ps A root (map.map entryCall) s := by
  rw [kernelInitializerFromMap, addCalls, List.foldlM_map]
  rfl

theorem addSpans_eq {root : Nat} {spans : List Span} :
    spans.foldlM (fun s range =>
      addToKernelPagetable ps A root range.data range.size .kernelWrite s) s =
      addCalls ps A root (spans.map spanCall) s := by
  rw [addCalls, List.foldlM_map]
  rfl

/-- The setup makes its calls, and nothing else. -/
theorem setupPagetableSev_eq_ok {root : Nat} {t : PagetableStore} :
    setupPagetableSev ps A (sevBootMap layout m.heap interruptStacks)
      m.aboveVtomMemoryRange s = .ok (root, t) ↔
    kernelRun ps A (sevCalls ps layout m interruptStacks) s = .ok (root, t) := by
  rw [kernelRun_eq, bind_eq_ok]
  simp only [bind_eq_ok, sevCalls, addCalls_append, addCalls_ite, addCalls_singleton]
  constructor
  · intro run
    obtain ⟨⟨root', s₁⟩, create, run⟩ := bind_eq_ok.mp run
    obtain ⟨s₂, above, run⟩ := ite_bind_eq_ok.mp run
    obtain ⟨s₃, extra, run⟩ := bind_eq_ok.mp run
    cases run
    obtain ⟨⟨root', s₄⟩, alloc, create⟩ := bind_eq_ok.mp create
    obtain ⟨s₅, predefined, create⟩ := bind_eq_ok.mp create
    obtain ⟨s₆, apic, create⟩ := ite_bind_eq_ok.mp create
    obtain ⟨s₇, shared, create⟩ := bind_eq_ok.mp create
    obtain ⟨s₈, first, create⟩ := ite_bind_eq_ok.mp create
    obtain ⟨s₉, additional, create⟩ := bind_eq_ok.mp create
    obtain ⟨s₀, interrupt, create⟩ := bind_eq_ok.mp create
    cases create
    cases apic
    rw [kernelInitializerFromMap_eq] at predefined interrupt
    rw [addSpans_eq] at additional
    rw [← ite_not] at first
    rw [sevBootMap, List.map_singleton, addCalls_singleton] at interrupt
    exact ⟨_, alloc, _, ⟨_, ⟨_, ⟨_, ⟨_, ⟨_, ⟨_, predefined, shared⟩, first⟩, additional⟩,
      interrupt⟩, above⟩, extra⟩, rfl⟩
  · rintro ⟨⟨root', s₁⟩, alloc, s₂, ⟨s₃, ⟨s₄, ⟨s₅, ⟨s₆, ⟨s₇, ⟨s₈, predefined, shared⟩, first⟩,
      additional⟩, interrupt⟩, above⟩, extra⟩, same⟩
    cases same
    rw [← kernelInitializerFromMap_eq] at predefined
    rw [← addSpans_eq] at additional
    rw [ite_not] at first
    refine bind_eq_ok.mpr ⟨(root', s₄), ?_, ite_bind_eq_ok.mpr ⟨_, above, bind_eq_ok.mpr
      ⟨_, extra, rfl⟩⟩⟩
    refine bind_eq_ok.mpr ⟨_, alloc, bind_eq_ok.mpr ⟨_, predefined, ite_bind_eq_ok.mpr ⟨_, rfl,
      bind_eq_ok.mpr ⟨_, shared, ite_bind_eq_ok.mpr ⟨_, first, bind_eq_ok.mpr ⟨_, additional,
      bind_eq_ok.mpr ⟨_, ?_, rfl⟩⟩⟩⟩⟩⟩⟩
    rw [kernelInitializerFromMap_eq, sevBootMap, List.map_singleton, addCalls_singleton]
    exact interrupt

/-! ## Where the memory lies -/

section Laid

variable {vtom heapStart : Nat} {map : MemoryMap} {h h' : HeapSetup}
variable {entries : List SevMemoryMapEntry}

theorem addRange_above {entryAddress currentEnd entrySize : Nat}
    (run : addRange ps heapStart entryAddress currentEnd entrySize h = .ok h') :
    h'.aboveVtomMemoryRange = h.aboveVtomMemoryRange := by
  rw [addRange] at run
  split at run
  next =>
    cases run
    rfl
  next =>
    split at run
    all_goals
      obtain ⟨heap, -, run⟩ := bind_eq_ok.mp run
      cases run
      rfl

/-- Without a virtual top of memory nothing is set aside. -/
theorem above_of_setup (run : setupEntries ps heapStart 0 entries h = .ok h') :
    h'.aboveVtomMemoryRange = h.aboveVtomMemoryRange := by
  induction entries generalizing h with
  | nil =>
      cases run
      rfl
  | cons entry entries ih =>
      rw [setupEntries] at run
      split at run
      next =>
        cases run
        rfl
      next =>
        obtain ⟨u, first, rest⟩ := bind_eq_ok.mp run
        refine (ih rest).trans ?_
        rcases (setupEntry_cases first).2 with ⟨used, -⟩ | ⟨used, -⟩ | ⟨-, first⟩
        · exact absurd rfl used
        · exact absurd rfl used
        · have kept := addRange_above first
          exact kept

/-- All memory is behind the image and below `2 ^ 48`. -/
structure Laid (ps : PageSize) (heapStart : Nat) (m : SevMemory) : Prop where
  start : m.heap.first.data = heapStart
  behind : ∀ r ∈ m.heap.ranges, heapStart ≤ r.data
  nonempty : ∀ r ∈ m.heap.ranges, 0 < r.size
  aligned : ∀ r ∈ m.heap.ranges, r.stop % ps.bytes = 0
  bound : ∀ r ∈ m.heap.ranges, r.stop ≤ 2 ^ 48
  above : m.aboveVtomMemoryRange.size ≠ 0 →
    heapStart ≤ m.aboveVtomMemoryRange.data ∧ m.aboveVtomMemoryRange.stop ≤ 2 ^ 48
  shared : (setupHypervisorStage2Sev m.heap).data = m.heap.last.stop

theorem laid_of_setupHeapSev (setup : setupHeapSev ps heapStart vtom map = .ok m)
    (nonempty : m.heap.first.size ≠ 0) : Laid ps heapStart m := by
  obtain ⟨top, h, validated, run, -, -, rfl⟩ := setupHeapSev_eq_ok setup
  have null : map[0].isNull = false := by
    by_contra null
    rw [setupEntries_of_null (by simpa using null)] at run
    cases run
    exact nonempty rfl
  have progress := setupEntries_progress top null run
  have bound : ∀ r ∈ h.heap.ranges, r.stop ≤ 2 ^ 48 :=
    fun r hr => Nat.le_trans (progress.placed r hr).bound progress.bound
  refine ⟨progress.start, ?_, fun r hr => (progress.placed r hr).nonempty,
    fun r hr => (progress.placed r hr).alignedEnd, bound, ?_, ?_⟩
  · intro r hr
    rcases List.mem_cons.mp hr with rfl | hr
    · exact Nat.le_of_eq progress.start.symm
    · have later := (List.pairwise_cons.mp progress.ascending).1 r hr
      rw [Span.stop, progress.start] at later
      omega
  · intro used
    obtain ⟨start, -, entry, mem, -, stop⟩ := progress.carved_of_nonempty used
    refine ⟨?_, Nat.le_trans stop (endAddress_le_of_setup run entry mem)⟩
    rw [start]
    refine Nat.le_of_lt (top ?_).1
    rintro rfl
    rw [above_of_setup run] at used
    exact used rfl
  · have below : h.heap.last.stop < 2 ^ 64 :=
      Nat.lt_of_le_of_lt (bound _ h.heap.last_mem) (by decide)
    exact (u64_largestValidAddress h.heap).trans (u64_of_lt below)

end Laid

/-! ## What the calls cover -/

/-- The allocator was given the first range alone, so that is where the interrupt stacks are. -/
structure StacksInside (m : SevMemory) (interruptStacks : AddressRange) : Prop where
  start : m.heap.first.data ≤ interruptStacks.start
  ordered : interruptStacks.start ≤ interruptStacks.stop
  stop : interruptStacks.stop ≤ m.heap.first.stop

section Calls

/-- The range of the loader's pages as a call: it ends below the image, and with small pages
before the last of the three. -/
def extraCall (ps : PageSize) : Nat × Nat × PagetablePermission :=
  match ps with
  | .kib4 => (0x301000, 0x2000, .kernelRead)
  | .mib2 => (0x200000, 0x200000, .kernelRead)

theorem rangeCall_extra (ps : PageSize) :
    rangeCall (extraDataRange ps) .kernelRead = extraCall ps := by
  cases ps <;> decide +kernel

theorem extraCall_le (ps : PageSize) : (extraCall ps).1 + (extraCall ps).2.1 ≤ 0x400000 := by
  cases ps <;> decide

/-- The calls with their sizes computed. -/
def sevRanges (ps : PageSize) (layout : ImageLayout) (m : SevMemory)
    (interruptStacks : AddressRange) : List (Nat × Nat × PagetablePermission) :=
  let boundary := alignUp layout.heapStart ps.bytes
  [(0, layout.elfStart, .noAccess),
    (layout.elfStart, layout.elfWritableStart - layout.elfStart, .kernelRead),
    (layout.elfWritableStart, boundary - layout.elfWritableStart, .kernelWrite)] ++
    [(m.heap.last.stop, ioSharedMemorySize, .kernelWrite)] ++
    (if boundary ≠ m.heap.first.stop then
      [(boundary, m.heap.first.stop - boundary, .kernelWrite)] else []) ++
    m.heap.additional.map spanCall ++
    [(interruptStacks.start, interruptStacks.stop - interruptStacks.start, .forceKernelWrite)] ++
    (if m.aboveVtomMemoryRange.size ≠ 0 then [spanCall m.aboveVtomMemoryRange] else []) ++
    [extraCall ps]

namespace Laid

variable (laid : Laid ps layout.heapStart m)

include laid

/-- The page boundary behind the start of the heap is not behind the end of the first range. -/
theorem boundary : layout.heapStart ≤ alignUp layout.heapStart ps.bytes ∧
    alignUp layout.heapStart ps.bytes ≤ m.heap.first.stop := by
  have bound := laid.bound _ m.heap.first_mem
  have less : layout.heapStart ≤ m.heap.first.stop := by
    rw [Span.stop, laid.start]
    exact Nat.le_add_right _ _
  have := ps.bytes_le
  exact ⟨le_alignUp ps.bytes_pos (by omega),
    alignUp_le_of_mod ps.bytes_pos (laid.aligned _ m.heap.first_mem) less⟩

theorem map_entryCall : (predefinedMap ps layout).map entryCall =
    [(0, layout.elfStart, .noAccess),
      (layout.elfStart, layout.elfWritableStart - layout.elfStart, .kernelRead),
      (layout.elfWritableStart, alignUp layout.heapStart ps.bytes - layout.elfWritableStart,
        .kernelWrite)] := by
  have := laid.boundary
  have := laid.bound _ m.heap.first_mem
  have := layout.writableAfterStart
  have := layout.heapAfterWritable
  simp only [predefinedMap, List.map_cons, List.map_nil, entryCall, AddressRange.alignUpEnd,
    AddressRange.ofBounds_start, AddressRange.ofBounds_stop]
  rw [Nat.max_eq_right (Nat.zero_le _), Nat.max_eq_right layout.writableAfterStart,
    Nat.max_eq_right layout.heapAfterWritable, Nat.max_eq_right (by omega),
    sub64_of_le (by omega) (Nat.zero_le _), sub64_of_le (by omega) (by omega),
    sub64_of_le (by omega) (by omega), Nat.sub_zero]

theorem rangeCall_shared : rangeCall (.ofSpan (setupHypervisorStage2Sev m.heap)) .kernelWrite =
    (m.heap.last.stop, ioSharedMemorySize, .kernelWrite) := by
  have bound := laid.bound _ m.heap.last_mem
  have size : (setupHypervisorStage2Sev m.heap).size = ioSharedMemorySize := rfl
  have room : m.heap.last.stop + ioSharedMemorySize < 2 ^ 64 := by
    rw [ioSharedMemorySize]
    omega
  simp only [rangeCall, AddressRange.ofSpan, AddressRange.size, laid.shared, size]
  rw [u64_of_lt room, sub64_of_le room (Nat.le_add_right _ _), Nat.add_sub_cancel_left]

theorem alignUpStart_first : (AddressRange.ofSpan m.heap.first).alignUpStart ps.bytes =
    ⟨alignUp layout.heapStart ps.bytes, m.heap.first.stop⟩ := by
  have bound := laid.bound _ m.heap.first_mem
  have stop : (AddressRange.ofSpan m.heap.first).stop = m.heap.first.stop :=
    u64_of_lt (Nat.lt_of_le_of_lt bound (by decide))
  have start : (AddressRange.ofSpan m.heap.first).start = layout.heapStart := laid.start
  rw [AddressRange.alignUpStart_eq, stop, start, Nat.max_eq_right laid.boundary.2]

theorem sevCalls_eq (inside : StacksInside m interruptStacks) :
    sevCalls ps layout m interruptStacks = sevRanges ps layout m interruptStacks := by
  have bound := laid.bound _ m.heap.first_mem
  have first : ∀ stop, (⟨alignUp layout.heapStart ps.bytes, stop⟩ : AddressRange).empty = true ↔
      alignUp layout.heapStart ps.bytes = stop := fun _ => beq_iff_eq
  have size : rangeCall ⟨alignUp layout.heapStart ps.bytes, m.heap.first.stop⟩ .kernelWrite =
      (alignUp layout.heapStart ps.bytes, m.heap.first.stop - alignUp layout.heapStart ps.bytes,
        .kernelWrite) := by
    simp only [rangeCall, AddressRange.size]
    rw [sub64_of_le (by omega) laid.boundary.2]
  have interrupt : entryCall ⟨interruptStacks, .forceKernelWrite⟩ = (interruptStacks.start,
      interruptStacks.stop - interruptStacks.start, .forceKernelWrite) := by
    have := inside.stop
    simp only [entryCall]
    rw [sub64_of_le (by omega) inside.ordered]
  simp only [sevCalls, sevRanges, laid.map_entryCall, laid.rangeCall_shared,
    laid.alignUpStart_first, first, size, interrupt, rangeCall_extra]

/-- The calls with large addresses map for writing. -/
theorem writes_of_mem (inside : StacksInside m interruptStacks)
    {c : Nat × Nat × PagetablePermission} (mem : c ∈ sevRanges ps layout m interruptStacks) :
    c = (0, layout.elfStart, .noAccess) ∨
      c = (layout.elfStart, layout.elfWritableStart - layout.elfStart, .kernelRead) ∨
      c = extraCall ps ∨
      layout.elfWritableStart ≤ c.1 ∧ c.2.2.kernelAccess = some true := by
  have := layout.heapAfterWritable
  have := laid.boundary
  simp only [sevRanges, List.mem_append, List.mem_cons, List.not_mem_nil, or_false] at mem
  rcases mem with (((((mem | rfl) | mem) | mem) | rfl) | mem) | rfl
  · rcases mem with rfl | rfl | rfl
    · exact .inl rfl
    · exact .inr (.inl rfl)
    · exact .inr (.inr (.inr ⟨Nat.le_refl _, rfl⟩))
  · refine .inr (.inr (.inr ⟨?_, rfl⟩))
    have := laid.behind _ m.heap.last_mem
    simp only [Span.stop]
    omega
  · split at mem
    next =>
      rw [List.mem_singleton.mp mem]
      exact .inr (.inr (.inr ⟨by simp only; omega, rfl⟩))
    next => cases mem
  · obtain ⟨r, hr, rfl⟩ := List.mem_map.mp mem
    have := laid.behind r (List.mem_cons_of_mem _ hr)
    exact .inr (.inr (.inr ⟨by simp only [spanCall]; omega, rfl⟩))
  · have := inside.start
    have := laid.start
    exact .inr (.inr (.inr ⟨by simp only; omega, rfl⟩))
  · split at mem
    next used =>
      rw [List.mem_singleton.mp mem]
      have := (laid.above used).1
      exact .inr (.inr (.inr ⟨by simp only [spanCall]; omega, rfl⟩))
    next => cases mem
  · exact .inr (.inr (.inl rfl))

/-- All calls stay below `2 ^ 48` if the one for the ring buffers does. -/
theorem bound_of_mem (inside : StacksInside m interruptStacks)
    (shared : m.heap.last.stop + ioSharedMemorySize ≤ 2 ^ 48)
    {c : Nat × Nat × PagetablePermission} (mem : c ∈ sevRanges ps layout m interruptStacks) :
    c.1 + c.2.1 ≤ 2 ^ 48 := by
  have := layout.writableAfterStart
  have := layout.heapAfterWritable
  have := laid.boundary
  have first := laid.bound _ m.heap.first_mem
  simp only [sevRanges, List.mem_append, List.mem_cons, List.not_mem_nil, or_false] at mem
  rcases mem with (((((mem | rfl) | mem) | mem) | rfl) | mem) | rfl
  · rcases mem with rfl | rfl | rfl <;> simp only <;> omega
  · exact shared
  · split at mem
    next =>
      rw [List.mem_singleton.mp mem]
      simp only
      omega
    next => cases mem
  · obtain ⟨r, hr, rfl⟩ := List.mem_map.mp mem
    exact laid.bound r (List.mem_cons_of_mem _ hr)
  · have := inside.ordered
    have := inside.stop
    simp only
    omega
  · split at mem
    next used =>
      rw [List.mem_singleton.mp mem]
      exact (laid.above used).2
    next => cases mem
  · exact Nat.le_trans (extraCall_le ps) (by decide)

end Laid

end Calls

/-! ## Coverage -/

/-- The kernel reaches an address under itself, and may write there or not. -/
def Mapped (t : PagetableStore) (root a : Nat) (writable : Bool) : Prop :=
  a < 2 ^ 48 ∧ translate t a pml4Level root = some (a, writable)

/-- Every byte that the kernel uses after the switch is mapped as it is used. -/
structure Covers (layout : ImageLayout) (m : SevMemory) (root : Nat) (t : PagetableStore) :
    Prop where
  heap : ∀ r ∈ m.heap.ranges, ∀ a, r.data ≤ a → a < r.stop → Mapped t root a true
  above : ∀ a, m.aboveVtomMemoryRange.data ≤ a → a < m.aboveVtomMemoryRange.stop →
    Mapped t root a true
  shared : ∀ a, (setupHypervisorStage2Sev m.heap).data ≤ a →
    a < (setupHypervisorStage2Sev m.heap).stop → Mapped t root a true
  data : ∀ a, layout.elfWritableStart ≤ a → a < layout.heapStart → Mapped t root a true
  image : ∀ a, layout.elfStart ≤ a → a < layout.elfWritableStart → Mapped t root a false
  loader : ∀ page ∈ [sevSecretPageAddress, unmeasuredLoaderDataAddress, sevVmsaSettingsAddress],
    ∀ a, page ≤ a → a < page + hvPageSize → ∃ writable, Mapped t root a writable

section Coverage

variable {root : Nat} {t : PagetableStore}

/-- The state after a finished setup. -/
structure Installed (ps : PageSize) (layout : ImageLayout) (m : SevMemory)
    (interruptStacks : AddressRange) (root : Nat) (t : PagetableStore) : Prop where
  image : layout.elfStart = imageStart
  laid : Laid ps layout.heapStart m
  inside : StacksInside m interruptStacks
  run : ∃ A s, kernelRun ps A (sevRanges ps layout m interruptStacks) s = .ok (root, t)

namespace Installed

variable (h : Installed ps layout m interruptStacks root t)
  (shared : m.heap.last.stop + ioSharedMemorySize ≤ 2 ^ 48)

include h shared

/-- An address is mapped as the last call that covers it says. -/
theorem mapped {a : Nat} {writable : Bool} (below : a < 2 ^ 48)
    (access : lastAccess (sevRanges ps layout m interruptStacks) a = some writable) :
    Mapped t root a writable := by
  obtain ⟨A, s, run⟩ := h.run
  refine ⟨below, ?_⟩
  rw [translate_of_kernelRun run (fun c => h.laid.bound_of_mem h.inside shared) below, access]
  rfl

/-- Behind the read-only part of the image, every call that covers an address writes. -/
theorem writable {a : Nat} (behind : layout.elfWritableStart ≤ a)
    {c : Nat × Nat × PagetablePermission} (mem : c ∈ sevRanges ps layout m interruptStacks)
    (start : c.1 ≤ a) (stop : a < c.1 + c.2.1) : Mapped t root a true := by
  have below := Nat.lt_of_lt_of_le stop (h.laid.bound_of_mem h.inside shared mem)
  refine h.mapped shared below (lastAccess_of_all ⟨c, mem, kernelCall_covers.mpr ⟨start, stop⟩⟩ ?_)
  intro c' mem' covers
  obtain ⟨-, less⟩ := kernelCall_covers.mp covers
  have := layout.writableAfterStart
  have image := h.image
  rcases h.laid.writes_of_mem h.inside mem' with rfl | rfl | rfl | ⟨-, access⟩
  · simp only at less
    omega
  · simp only at less
    omega
  · have := extraCall_le ps
    rw [imageStart] at image
    omega
  · exact access

theorem readOnly {a : Nat} (start : layout.elfStart ≤ a) (stop : a < layout.elfWritableStart) :
    Mapped t root a false := by
  have below : a < 2 ^ 48 := by
    have := layout.heapAfterWritable
    have := h.laid.boundary
    have := h.laid.bound _ m.heap.first_mem
    omega
  have mem : (layout.elfStart, layout.elfWritableStart - layout.elfStart,
      PagetablePermission.kernelRead) ∈ sevRanges ps layout m interruptStacks := by
    simp [sevRanges]
  refine h.mapped shared below (lastAccess_of_all ⟨_, mem, kernelCall_covers.mpr ⟨start, ?_⟩⟩ ?_)
  · simp only
    omega
  · intro c mem' covers
    obtain ⟨greater, less⟩ := kernelCall_covers.mp covers
    have image := h.image
    rcases h.laid.writes_of_mem h.inside mem' with rfl | rfl | rfl | ⟨behind, -⟩
    · simp only at less
      omega
    · rfl
    · have := extraCall_le ps
      rw [imageStart] at image
      omega
    · omega

/-- With large pages, the range of the loader's pages holds all three. -/
theorem loader_mib2 (large : ps = .mib2) {a : Nat} (start : sevSecretPageAddress ≤ a)
    (stop : a < sevVmsaSettingsAddress + hvPageSize) : Mapped t root a false := by
  subst large
  rw [sevSecretPageAddress] at start
  rw [sevVmsaSettingsAddress, hvPageSize] at stop
  refine h.mapped shared (by omega) ?_
  rw [sevRanges]
  refine lastAccess_append_covered (kernelCall_covers.mpr ?_)
  simp only [extraCall]
  omega

/-- With small pages, nothing but the range without access covers the settings page. -/
theorem loader_kib4 (small : ps = .kib4) {writable : Bool} :
    ¬ Mapped t root sevVmsaSettingsAddress writable := by
  subst small
  have image := h.image
  rw [imageStart] at image
  have := layout.writableAfterStart
  have mem : (0, layout.elfStart, PagetablePermission.noAccess) ∈
      sevRanges .kib4 layout m interruptStacks := by
    simp [sevRanges]
  have access : lastAccess (sevRanges .kib4 layout m interruptStacks) sevVmsaSettingsAddress =
      none := by
    refine lastAccess_of_all ⟨_, mem, kernelCall_covers.mpr ⟨Nat.zero_le _, ?_⟩⟩ ?_
    · rw [image]
      decide
    · intro c mem' covers
      obtain ⟨greater, less⟩ := kernelCall_covers.mp covers
      rw [sevVmsaSettingsAddress] at greater less
      rcases h.laid.writes_of_mem h.inside mem' with rfl | rfl | rfl | ⟨behind, -⟩
      · rfl
      · simp only at greater
        omega
      · simp only [extraCall] at less
        omega
      · omega
  obtain ⟨A, s, run⟩ := h.run
  rintro ⟨below, mapped⟩
  rw [translate_of_kernelRun run (fun c => h.laid.bound_of_mem h.inside shared) below, access]
    at mapped
  cases mapped

theorem heap_mapped {r : Span} (mem : r ∈ m.heap.ranges) {a : Nat} (start : r.data ≤ a)
    (stop : a < r.stop) : Mapped t root a true := by
  have := layout.heapAfterWritable
  have behind := h.laid.behind r mem
  rcases List.mem_cons.mp mem with rfl | mem
  · by_cases inner : a < alignUp layout.heapStart ps.bytes
    · -- the page that the image ends on
      refine h.writable shared (by omega) (c := (layout.elfWritableStart,
        alignUp layout.heapStart ps.bytes - layout.elfWritableStart, .kernelWrite))
        (by simp [sevRanges]) ?_ ?_
      all_goals
        simp only
        omega
    · have differ : alignUp layout.heapStart ps.bytes ≠ m.heap.first.stop := by omega
      refine h.writable shared (by omega) (c := (alignUp layout.heapStart ps.bytes,
        m.heap.first.stop - alignUp layout.heapStart ps.bytes, .kernelWrite))
        (by simp [sevRanges, differ]) ?_ ?_
      all_goals
        simp only
        omega
  · refine h.writable shared (by omega) (c := spanCall r) ?_ start stop
    simp only [sevRanges, List.mem_append]
    exact .inl (.inl (.inl (.inr (List.mem_map_of_mem mem))))

theorem above_mapped {a : Nat} (start : m.aboveVtomMemoryRange.data ≤ a)
    (stop : a < m.aboveVtomMemoryRange.stop) : Mapped t root a true := by
  have used : m.aboveVtomMemoryRange.size ≠ 0 := by
    rw [Span.stop] at stop
    omega
  have := layout.heapAfterWritable
  have := h.laid.above used
  exact h.writable shared (by omega) (c := spanCall m.aboveVtomMemoryRange)
    (by simp [sevRanges, used]) start stop

theorem shared_mapped {a : Nat} (start : m.heap.last.stop ≤ a)
    (stop : a < m.heap.last.stop + ioSharedMemorySize) : Mapped t root a true := by
  have behind := h.laid.behind _ m.heap.last_mem
  have := layout.heapAfterWritable
  rw [Span.stop] at start
  exact h.writable shared (by omega) (c := (m.heap.last.stop, ioSharedMemorySize, .kernelWrite))
    (by simp [sevRanges]) start stop

theorem data_mapped {a : Nat} (start : layout.elfWritableStart ≤ a) (stop : a < layout.heapStart) :
    Mapped t root a true := by
  have := h.laid.boundary
  refine h.writable shared start (c := (layout.elfWritableStart,
    alignUp layout.heapStart ps.bytes - layout.elfWritableStart, .kernelWrite))
    (by simp [sevRanges]) start ?_
  simp only
  omega

end Installed

theorem setupHypervisorStage2Sev_stop (laid : Laid ps layout.heapStart m) :
    (setupHypervisorStage2Sev m.heap).stop = m.heap.last.stop + ioSharedMemorySize := by
  rw [Span.stop, laid.shared]
  rfl

theorem Installed.covers_iff (h : Installed ps layout m interruptStacks root t) :
    Covers layout m root t ↔
      ps = .mib2 ∧ (setupHypervisorStage2Sev m.heap).stop ≤ 2 ^ 48 := by
  have shared := setupHypervisorStage2Sev_stop h.laid
  constructor
  · intro covers
    have bound : (setupHypervisorStage2Sev m.heap).stop ≤ 2 ^ 48 := by
      have last := covers.shared ((setupHypervisorStage2Sev m.heap).stop - 1)
      rw [shared, h.laid.shared] at last
      rw [shared]
      have size : 0 < ioSharedMemorySize := by decide
      have below := (last (by omega) (by omega)).1
      omega
    refine ⟨?_, bound⟩
    rw [shared] at bound
    cases size : ps with
    | kib4 =>
        obtain ⟨writable, mapped⟩ := covers.loader sevVmsaSettingsAddress (by simp) _
          (Nat.le_refl _) (by decide)
        exact absurd mapped (h.loader_kib4 bound size)
    | mib2 => rfl
  · rintro ⟨large, bound⟩
    rw [shared] at bound
    refine ⟨fun r mem a => h.heap_mapped bound mem, fun a => h.above_mapped bound, ?_,
      fun a => h.data_mapped bound, fun a => h.readOnly bound, ?_⟩
    · intro a start stop
      rw [h.laid.shared] at start
      rw [shared] at stop
      exact h.shared_mapped bound start stop
    · intro page mem a start stop
      have pages : sevSecretPageAddress ≤ page ∧ page ≤ sevVmsaSettingsAddress := by
        simp only [List.mem_cons, List.not_mem_nil, or_false] at mem
        rcases mem with rfl | rfl | rfl <;> decide
      exact ⟨false, h.loader_mib2 bound large (by omega) (by omega)⟩

theorem startcc_eq_ok {vtom : Nat} {map : MemoryMap} :
    startcc ps A layout vtom map interruptStacks s = .ok (m, root, t) ↔
      setupHeapSev ps layout.heapStart vtom map = .ok m ∧ m.heap.first.size ≠ 0 ∧
        kernelRun ps A (sevCalls ps layout m interruptStacks) s = .ok (root, t) := by
  rw [← setupPagetableSev_eq_ok, startcc, bind_eq_ok]
  constructor
  · rintro ⟨m', setup, run⟩
    obtain ⟨nonempty, run⟩ := guard_eq_ok.mp run
    obtain ⟨⟨root', t'⟩, table, same⟩ := bind_eq_ok.mp run
    cases same
    exact ⟨setup, nonempty, table⟩
  · rintro ⟨setup, nonempty, table⟩
    exact ⟨m, setup, guard_eq_ok.mpr ⟨nonempty, bind_eq_ok.mpr ⟨_, table, rfl⟩⟩⟩

/-- The table covers what the kernel uses exactly with large pages and ring buffers that end below
`2 ^ 48`. -/
theorem kernel_table_covers_iff {vtom : Nat} {map : MemoryMap}
    (image : layout.elfStart = imageStart) (inside : StacksInside m interruptStacks)
    (run : startcc ps A layout vtom map interruptStacks s = .ok (m, root, t)) :
    Covers layout m root t ↔
      ps = .mib2 ∧ (setupHypervisorStage2Sev m.heap).stop ≤ 2 ^ 48 := by
  obtain ⟨setup, nonempty, table⟩ := startcc_eq_ok.mp run
  have laid := laid_of_setupHeapSev setup nonempty
  rw [laid.sevCalls_eq inside] at table
  exact Installed.covers_iff ⟨image, laid, inside, A, s, table⟩

/-- With the allocator that never runs out, a start with whole pages and moderate sizes succeeds. -/
theorem exists_startcc_bump {vtom : Nat} {map : MemoryMap}
    (setup : setupHeapSev ps layout.heapStart vtom map = .ok m) (nonempty : m.heap.first.size ≠ 0)
    (inside : StacksInside m interruptStacks)
    (shared : m.heap.last.stop + ioSharedMemorySize ≤ 2 ^ 48)
    (aligned : ∀ c ∈ sevRanges ps layout m interruptStacks,
      c.1 % ps.bytes = 0 ∧ c.2.1 % ps.bytes = 0)
    (room : topNode s + 4096 + 4096 * (pml4Level * totalSize (sevRanges ps layout m
      interruptStacks)) < 2 ^ 52) :
    ∃ root t, startcc ps .bump layout vtom map interruptStacks s = .ok (m, root, t) := by
  have laid := laid_of_setupHeapSev setup nonempty
  obtain ⟨root, t, run⟩ := kernelRun_bump aligned
    (fun c => laid.bound_of_mem inside shared) room
  refine ⟨root, t, startcc_eq_ok.mpr ⟨setup, nonempty, ?_⟩⟩
  rwa [laid.sevCalls_eq inside]

end Coverage

/-- An image of four mebibytes. -/
def sampleLayout : ImageLayout := ⟨imageStart, 0x800000, 0x9ff800, by decide, by decide⟩

/-- One entry, from the data of the image to `0xc00000`. -/
def singleMap : MemoryMap := emptyMap.setIfInBounds 0 ⟨0x800, 0x400, 0⟩

/-- What the heap setup makes of it. -/
def sampleMemory : SevMemory :=
  ⟨⟨⟨0x9ff800, 0x200800⟩, []⟩, ⟨0, 0⟩, pagesOf 0xa00000 0xc00000⟩

def sampleStacks : AddressRange := ⟨0xa00000, 0xc00000⟩

theorem setupHeapSev_singleMap (ps : PageSize) :
    setupHeapSev ps sampleLayout.heapStart 0 singleMap = .ok sampleMemory := by
  have entries : setupEntries ps sampleLayout.heapStart 0 singleMap.toList .initial =
      .ok ⟨false, true, 0xc00000, ⟨0, 0⟩, ⟨⟨0x9ff800, 0x200800⟩, []⟩⟩ := by
    cases ps <;> decide +kernel
  have heapRange : (AddressRange.ofBounds sampleLayout.heapStart (u64
      ((⟨⟨0x9ff800, 0x200800⟩, []⟩ : HeapRanges).largestValidAddress + 1))).alignUpStart ps.bytes =
      ⟨0xa00000, 0xc00000⟩ := by
    cases ps <;> decide +kernel
  have accepted : acceptPrivateMemory ⟨0xa00000, 0xc00000⟩ = .ok (pagesOf 0xa00000 0xc00000) :=
    acceptPrivateMemory_of_le (by decide +kernel)
  rw [setupHeapSev, if_neg (by simp)]
  refine bind_eq_ok.mpr ⟨_, entries, guard_eq_ok.mpr ⟨by simp, bind_eq_ok.mpr ⟨_, ?_, rfl⟩⟩⟩
  rw [heapRange]
  exact accepted

theorem stacksInside_sample : StacksInside sampleMemory sampleStacks :=
  ⟨by decide, by decide, by decide⟩

theorem exists_startcc_singleMap (ps : PageSize) :
    ∃ root t, startcc ps .bump sampleLayout 0 singleMap sampleStacks ⟨fun _ _ => .null, []⟩ =
      .ok (sampleMemory, root, t) := by
  refine exists_startcc_bump (setupHeapSev_singleMap ps) (by decide) stacksInside_sample
    (by decide) ?_ ?_
  · cases ps <;> decide +kernel
  · cases ps <;> decide +kernel

theorem kernel_table_covers_mib2 :
    ∃ root t, startcc .mib2 .bump sampleLayout 0 singleMap sampleStacks
      ⟨fun _ _ => .null, []⟩ = .ok (sampleMemory, root, t) ∧
      Covers sampleLayout sampleMemory root t := by
  obtain ⟨root, t, run⟩ := exists_startcc_singleMap .mib2
  exact ⟨root, t, run, (kernel_table_covers_iff rfl stacksInside_sample run).mpr
    ⟨rfl, by decide +kernel⟩⟩

/-- With small pages the settings page is not mapped, although the start succeeds. -/
theorem vmsa_settings_unmapped_kib4 :
    ∃ root t, startcc .kib4 .bump sampleLayout 0 singleMap sampleStacks
      ⟨fun _ _ => .null, []⟩ = .ok (sampleMemory, root, t) ∧
      StacksInside sampleMemory sampleStacks ∧
      ∀ writable, ¬ Mapped t root sevVmsaSettingsAddress writable := by
  obtain ⟨root, t, run⟩ := exists_startcc_singleMap .kib4
  obtain ⟨setup, nonempty, table⟩ := startcc_eq_ok.mp run
  have laid := laid_of_setupHeapSev setup nonempty
  rw [laid.sevCalls_eq stacksInside_sample] at table
  have installed : Installed .kib4 sampleLayout sampleMemory sampleStacks root t :=
    ⟨rfl, laid, stacksInside_sample, .bump, _, table⟩
  exact ⟨root, t, run, stacksInside_sample, fun _ => installed.loader_kib4 (by decide) rfl⟩

end Monza.Sev
