import Monza.Heap
import Monza.Pagetable.History

/-!
# Building the kernel and compartment tables

The kernel table is set up once from the image layout, the local APIC, the
shared I/O range, the heap and the interrupt stacks. Compartment tables start
from the predefined map and the interrupt stack map and are then changed through
two checked functions. Only the unchecked initialiser of compartments relies on
the maps being aligned; the kernel initialiser has aborted on all others before.
-/

namespace Monza

open Outcome Radix

structure MapEntry where
  range : AddressRange
  perm : PagetablePermission
  deriving DecidableEq, Repr

/-- The linker symbols that delimit the image, in the order the linker script has them. -/
structure ImageLayout where
  elfStart : Nat
  elfWritableStart : Nat
  heapStart : Nat
  writableAfterStart : elfStart ≤ elfWritableStart
  heapAfterWritable : elfWritableStart ≤ heapStart

def predefinedMap (ps : PageSize) (layout : ImageLayout) : List MapEntry :=
  [⟨.ofBounds 0 layout.elfStart, .noAccess⟩,
    ⟨.ofBounds layout.elfStart layout.elfWritableStart, .kernelRead⟩,
    ⟨(AddressRange.ofBounds layout.elfWritableStart layout.heapStart).alignUpEnd ps.bytes,
      .kernelWrite⟩]

section

variable (ps : PageSize) (A : NodeAllocator)

def addToKernelPagetable (kernelPagetable base size : Nat) (perm : PagetablePermission)
    (s : PagetableStore) : Result PagetableStore :=
  if base % ps.bytes ≠ 0 ∨ size % ps.bytes ≠ 0 then .error .kabort
  else addToPagetable ps A true pml4Level kernelPagetable base size perm .normal s

def kernelInitializerFromMap (kernelPagetable : Nat) (map : List MapEntry) (s : PagetableStore) :
    Result PagetableStore :=
  map.foldlM (fun s entry => addToKernelPagetable ps A kernelPagetable entry.range.start
    (sub64 entry.range.stop entry.range.start) entry.perm s) s

/-- Everything `create_kernel_page_table` reads from its environment. -/
structure BootMap where
  layout : ImageLayout
  localApicMapping : Nat
  ioSharedRange : Span
  heap : HeapRanges
  interruptStackMap : List MapEntry

def createKernelPageTable (boot : BootMap) (s : PagetableStore) :
    Result (Nat × PagetableStore) := do
  let (kernelPagetable, s) ← allocPagetableNode A true s
  let s ← kernelInitializerFromMap ps A kernelPagetable (predefinedMap ps boot.layout) s
  let s ←
    if boot.localApicMapping ≠ 0 then
      addToKernelPagetable ps A kernelPagetable boot.localApicMapping ps.bytes .kernelWrite s
    else .ok s
  let shared := AddressRange.ofSpan boot.ioSharedRange
  let s ← addToKernelPagetable ps A kernelPagetable shared.start shared.size .kernelWrite s
  let firstHeapRange := (AddressRange.ofSpan boot.heap.first).alignUpStart ps.bytes
  let s ←
    if firstHeapRange.empty then .ok s
    else
      addToKernelPagetable ps A kernelPagetable firstHeapRange.start firstHeapRange.size
        .kernelWrite s
  let s ← boot.heap.additional.foldlM (fun s range =>
    addToKernelPagetable ps A kernelPagetable range.data range.size .kernelWrite s) s
  let s ← kernelInitializerFromMap ps A kernelPagetable boot.interruptStackMap s
  .ok (kernelPagetable, s)

def compartmentInitializerFromMap (root : Nat) (map : List MapEntry) (s : PagetableStore) :
    Result PagetableStore :=
  map.foldlM (fun s entry => addToPagetable ps A false pml4Level root entry.range.start
    (sub64 entry.range.stop entry.range.start) entry.perm .persistent s) s

/-- The two maps are globals of the source. -/
def createCompartmentPagetable (predefined interruptStackMap : List MapEntry)
    (s : PagetableStore) : Result (Nat × PagetableStore) := do
  let (root, s) ← allocPagetableNode A false s
  let s ← compartmentInitializerFromMap ps A root predefined s
  let s ← compartmentInitializerFromMap ps A root interruptStackMap s
  .ok (root, s)

def deallocateCompartmentPagetable (root : Nat) (s : PagetableStore) : PagetableStore :=
  deallocatePagetable ps pml4Level root s

def addToCompartmentPagetable (root base size : Nat) (perm : PagetablePermission)
    (s : PagetableStore) : Result PagetableStore :=
  if base % ps.bytes ≠ 0 ∨ size % ps.bytes ≠ 0 then .error .kabort
  else addToPagetable ps A false pml4Level root base size perm .normal s

def removeFromCompartmentPagetable (kernelPagetable root base size : Nat) (s : PagetableStore) :
    Result PagetableStore :=
  if base % ps.bytes ≠ 0 ∨ size % ps.bytes ≠ 0 then .error .kabort
  else if root = kernelPagetable then .error .kabort
  else removeFromPagetable ps pml4Level root base size s

end

variable {ps : PageSize} {A : NodeAllocator} {root : Nat} {s : PagetableStore} {N : Set Nat}

/-- A map entry of whole pages in the lower half. -/
structure MapEntry.Fits (ps : PageSize) (e : MapEntry) : Prop where
  ordered : e.range.start ≤ e.range.stop
  aligned : e.range.start % ps.bytes = 0
  alignedEnd : e.range.stop % ps.bytes = 0
  bound : e.range.stop ≤ 2 ^ 48

/-- The call that installs a map entry in a compartment table. -/
def MapEntry.call (e : MapEntry) : TableCall :=
  .add false e.range.start (sub64 e.range.stop e.range.start) e.perm .persistent

theorem MapEntry.Fits.size_eq {e : MapEntry} (h : e.Fits ps) :
    sub64 e.range.stop e.range.start = e.range.stop - e.range.start :=
  sub64_of_le (Nat.lt_of_le_of_lt h.bound (by decide)) h.ordered

theorem MapEntry.call_base (e : MapEntry) : e.call.base = e.range.start := by
  rw [MapEntry.call, TableCall.base]

theorem MapEntry.call_size (e : MapEntry) :
    e.call.size = sub64 e.range.stop e.range.start := by
  rw [MapEntry.call, TableCall.size]

theorem MapEntry.call_value (e : MapEntry) : e.call.value ps = leafFor ps false .normal e.perm :=
  (leafFor_normal .persistent _ _).symm

theorem MapEntry.call_ofKind (e : MapEntry) : e.call.OfKind {false} := rfl

theorem MapEntry.Fits.valid {e : MapEntry} (h : e.Fits ps) : e.call.Valid ps := by
  have hbase := e.call_base
  have hsize := e.call_size.trans h.size_eq
  refine ⟨hbase ▸ h.aligned, ?_, ?_⟩
  · rw [hsize]
    exact Nat.mod_eq_zero_of_dvd (Nat.dvd_sub (Nat.dvd_of_mod_eq_zero h.alignedEnd)
      (Nat.dvd_of_mod_eq_zero h.aligned))
  · have := h.ordered
    have := h.bound
    omega

theorem MapEntry.Fits.covers_iff {e : MapEntry} (h : e.Fits ps) {a : Nat} :
    e.call.covers a = true ↔ e.range.start ≤ a ∧ a < e.range.stop := by
  have := h.ordered
  rw [TableCall.covers, decide_eq_true_iff, e.call_base, e.call_size, h.size_eq]
  omega

/-- What the kernel initialiser lets through is aligned, for both maps that
compartments are later built from. -/
theorem kernelInitializerFromMap_aligned {kernelPagetable : Nat} {map : List MapEntry}
    {t : PagetableStore} (run : kernelInitializerFromMap ps A kernelPagetable map s = .ok t) :
    ∀ e ∈ map, e.range.start % ps.bytes = 0 ∧
      sub64 e.range.stop e.range.start % ps.bytes = 0 := by
  induction map generalizing s with
  | nil => simp
  | cons e map ih =>
      rw [kernelInitializerFromMap, List.foldlM_cons, bind_eq_ok] at run
      obtain ⟨u, first, rest⟩ := run
      rw [List.forall_mem_cons]
      refine ⟨?_, ih rest⟩
      by_contra h
      rw [addToKernelPagetable, if_pos (by omega)] at first
      cases first

theorem compartmentInitializerFromMap_eq (map : List MapEntry) :
    compartmentInitializerFromMap ps A root map s =
      runCalls ps A root (map.map MapEntry.call) s := by
  rw [compartmentInitializerFromMap, runCalls, List.foldlM_map]
  rfl

theorem createCompartmentPagetable_eq (predefined interruptStackMap : List MapEntry) :
    createCompartmentPagetable ps A predefined interruptStackMap s =
      (allocPagetableNode A false s >>= fun (root, s) =>
        runCalls ps A root ((predefined ++ interruptStackMap).map MapEntry.call) s >>= fun t =>
          .ok (root, t)) := by
  simp only [createCompartmentPagetable, compartmentInitializerFromMap_eq, List.map_append,
    runCalls_append, bind_assoc]

/-- The state of a root right after its allocation. -/
theorem allocPagetableNode_sat (ps : PageSize) (K : Set Bool) {isKernel : Bool} :
    Sat (allocPagetableNode A isKernel s)
      (fun result => TableAt ps K result.2 result.1 {result.1} ∧
        (∀ a, entryAt ps result.2 result.1 a = .null) ∧ result.1 ∉ s.live ∧
        result.2 = s.alloc result.1 .null ∧ A.alloc isKernel s.live = some result.1)
      (fun f => f = .outOfMemory ∧ A.alloc isKernel s.live = none) := by
  rw [allocPagetableNode]
  cases halloc : A.alloc isKernel s.live with
  | none => exact ⟨rfl, rfl⟩
  | some node =>
      have zeroed : ∀ i, (s.alloc node .null).nodes node i = .null := Store.alloc_self s node .null
      have table : TableAt ps K (s.alloc node .null) node {node} :=
        TableAt.of_zeroed List.mem_cons_self (A.nonnull halloc) zeroed
      refine ⟨table, fun a => ?_, A.fresh halloc, rfl, rfl⟩
      rw [table.entryAt_eq]
      exact lookup_of_zero zeroed _

/-- A new table is refused a node only by an allocator that could not fill it. -/
def RefusedTable (A : NodeAllocator) (K : Set Bool) (ps : PageSize) (s : PagetableStore)
    (f : Fault) : Prop :=
  f = .outOfMemory ∧ ¬ A.Room K (ps.tableNodes + 1) s.live

/-- The root takes one node and lacks all others. -/
theorem room_of_root {K : Set Bool} {isKernel : Bool} {root : Nat} (kind : isKernel ∈ K)
    (answer : A.alloc isKernel s.live = some root) (room : A.Room K (ps.tableNodes + 1) s.live) :
    A.Room K (vacant K (s.alloc root .null) ps.topDepth root + 0) (s.alloc root .null).live := by
  obtain ⟨node, same, rest⟩ := room isKernel kind
  obtain rfl := Option.some.inj (answer.symm.trans same)
  rw [Nat.add_zero, vacant_of_zeroed (Store.alloc_self s root .null)]
  exact rest

/-- A compartment table starts as the map of its two initial maps, on nodes that
were not in use before. -/
theorem createCompartmentPagetable_sat {predefined interruptStackMap : List MapEntry}
    (fits : ∀ e ∈ predefined ++ interruptStackMap, e.Fits ps) :
    Sat (createCompartmentPagetable ps A predefined interruptStackMap s)
      (fun result => (∃ M, TableAt ps {false} result.2 result.1 M ∧ Grown s result.2 ∅ M ∧
        ∀ a, a < 2 ^ 48 → entryAt ps result.2 result.1 a = historyMap ps (fun _ => .null)
          ((predefined ++ interruptStackMap).map MapEntry.call) a) ∧
        (A.Room {false} (ps.tableNodes + 1) s.live →
          A.Room {false} (vacant {false} result.2 ps.topDepth result.1) result.2.live))
      (RefusedTable A {false} ps s) := by
  rw [createCompartmentPagetable_eq]
  refine ((allocPagetableNode_sat ps {false}).mono (fun _ h => h) ?_).bind ?_
  · rintro f ⟨oom, none⟩
    refine ⟨oom, fun room => ?_⟩
    obtain ⟨node, answer, -⟩ := room false rfl
    rw [none] at answer
    cases answer
  rintro ⟨root, t⟩ ⟨table, zero, unused, alloc, answer⟩
  obtain rfl : t = s.alloc root .null := alloc
  have start : Grown s (s.alloc root .null) ∅ {root} := by
    refine ⟨fun a ha => List.mem_cons_of_mem _ ha, ?_, fun a ha => ha.elim, ?_, ?_⟩
    · rintro a rfl
      exact List.mem_cons_self
    · rintro a rfl -
      exact unused
    · intro a ha
      exact Store.alloc_ne s .null ha
  refine ((runCalls_sat table (List.forall_mem_map.mpr fun e _ => MapEntry.call_ofKind e)
    (List.forall_mem_map.mpr fun e he => (fits e he).valid)).mono (fun _ h => h) fun f refused =>
      ⟨refused.1, fun room => refused.2 (room_of_root rfl answer room)⟩).bind ?_
  rintro u ⟨⟨M, tableM, grownM, entries⟩, fills⟩
  refine ⟨⟨M, tableM, start.trans grownM, fun a ha => ?_⟩, fun room =>
    fills 0 (room_of_root rfl answer room)⟩
  rw [← funext zero]
  exact entries a ha

end Monza
