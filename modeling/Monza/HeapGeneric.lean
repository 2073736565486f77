import Monza.Sev.SharedMemory

/-!
# The heap of a machine without encryption

The firmware describes the memory by a table of entries, in any order and with any overlap.
The heap is set up from the entries of type RAM that do not start at zero. The first range goes
from the end of the image to the end of the first such entry, wherever this entry starts; every
other one is cut to whole pages and added as it comes.

What is derived from the ranges afterwards, the size of the pagemaps and the place of the memory
that is shared with the host, looks at the first range and the last one only.
-/

namespace Monza

open Outcome

def e820TypeRam : BitVec 32 := 1

structure E820Entry where
  addr : BitVec 64
  size : BitVec 64
  type : BitVec 32
  deriving DecidableEq, Repr

namespace E820Entry

variable (entry : E820Entry)

/-- The sum `entry.addr + entry.size` of the source. -/
def endAddress : Nat := u64 (entry.addr.toNat + entry.size.toNat)

/-- The condition under which an entry is used. -/
def usable : Bool := decide (entry.addr ≠ 0) && decide (entry.type = e820TypeRam)

end E820Entry

/-- The variables of the loop. -/
structure GenericSetup where
  firstEntry : Bool
  heap : HeapRanges
  deriving DecidableEq, Repr

section Definitions

variable (ps : PageSize) (heapStart : Nat)

def setupEntryGeneric (s : GenericSetup) (entry : E820Entry) : Result GenericSetup :=
  if entry.usable then
    if s.firstEntry then
      if heapStart > entry.endAddress then .error .kabort
      else do
        let heap ← s.heap.setFirst ps ⟨heapStart, sub64 entry.endAddress heapStart⟩
        .ok ⟨false, heap⟩
    else do
      let heap ← s.heap.add ps ⟨entry.addr.toNat, entry.size.toNat⟩
      .ok { s with heap := heap }
  else .ok s

/-- `setup_heap_generic` for the table of the kernel's zero page. -/
def setupHeapGeneric (table : List E820Entry) : Result HeapRanges := do
  let s ← table.foldlM (setupEntryGeneric ps heapStart) ⟨true, .initial⟩
  .ok s.heap

end Definitions

/-- `HeapRanges::size`. -/
def HeapRanges.size (h : HeapRanges) : Nat :=
  u64 (sub64 h.largestValidAddress (AddressRange.ofSpan h.first).start + 1)

/-- The range of the heap that `startcc` has the pagemaps cover. -/
def HeapRanges.pagemapRange (h : HeapRanges) : Span := ⟨h.first.data, h.size⟩

/-- The `io_shared_range` that `setup_hypervisor_stage2_hyperv` installs. -/
def setupHypervisorStage2Hyperv (heap : HeapRanges) : Span :=
  ⟨u64 (heap.largestValidAddress + 1), Sev.ioSharedMemorySize⟩

/-! ## The ranges of a table -/

section Ranges

variable {ps : PageSize} {heapStart : Nat} {table rest : List E820Entry} {entry : E820Entry}
variable {heap : HeapRanges} {s t : GenericSetup}

/-- The whole pages of an entry. -/
def pagesOf (ps : PageSize) (entry : E820Entry) : Span :=
  let start := alignUp entry.addr.toNat ps.bytes
  ⟨start, alignDown entry.endAddress ps.bytes - start⟩

/-- What the first entry gives. -/
def firstPagesOf (ps : PageSize) (heapStart : Nat) (entry : E820Entry) : Span :=
  ⟨heapStart, alignDown entry.endAddress ps.bytes - heapStart⟩

theorem span_eq {r : Span} {start stop : Nat}
    (h : r.data = start ∧ r.stop = stop ∧ 0 < r.size) :
    r = ⟨start, stop - start⟩ ∧ start < stop := by
  obtain ⟨rfl, rfl, nonempty⟩ := h
  rw [Span.stop, Nat.add_sub_cancel_left]
  exact ⟨rfl, Nat.lt_add_of_pos_right nonempty⟩

theorem setupEntryGeneric_first (usable : entry.usable = true) (first : s.firstEntry = true)
    (h : setupEntryGeneric ps heapStart s entry = .ok t) :
    t = ⟨false, { s.heap with first := firstPagesOf ps heapStart entry }⟩ ∧
      heapStart < alignDown entry.endAddress ps.bytes := by
  rw [setupEntryGeneric, if_pos usable, if_pos first] at h
  obtain ⟨reaches, h⟩ := guard_eq_ok.mp h
  obtain ⟨heap, hheap, h⟩ := bind_eq_ok.mp h
  obtain ⟨r, hr, hheap⟩ := bind_eq_ok.mp hheap
  cases h
  cases hheap
  have word : entry.endAddress < 2 ^ 64 := u64_lt _
  have stop : Span.stop ⟨heapStart, sub64 entry.endAddress heapStart⟩ = entry.endAddress := by
    rw [Span.stop, sub64_of_le word (Nat.le_of_not_lt reaches)]
    exact Nat.add_sub_of_le (Nat.le_of_not_lt reaches)
  have range := HeapRanges.alignEnd_eq_ok (by rwa [stop]) hr
  rw [stop] at range
  obtain ⟨rfl, less⟩ := span_eq range
  exact ⟨rfl, less⟩

theorem setupEntryGeneric_later (usable : entry.usable = true) (later : s.firstEntry = false)
    (h : setupEntryGeneric ps heapStart s entry = .ok t) :
    t = ⟨false, { s.heap with additional := s.heap.additional ++ [pagesOf ps entry] }⟩ ∧
      alignUp entry.addr.toNat ps.bytes < alignDown entry.endAddress ps.bytes := by
  rw [setupEntryGeneric, if_pos usable, later, if_neg Bool.false_ne_true] at h
  obtain ⟨heap, hheap, h⟩ := bind_eq_ok.mp h
  obtain ⟨-, hheap⟩ := guard_eq_ok.mp hheap
  obtain ⟨r, hr, hheap⟩ := bind_eq_ok.mp hheap
  cases h
  cases hheap
  obtain ⟨rfl, less⟩ := span_eq (HeapRanges.align_eq_ok entry.addr.isLt hr)
  exact ⟨rfl, less⟩

/-- Entries that are not used change nothing. -/
theorem foldlM_usable : table.foldlM (setupEntryGeneric ps heapStart) s =
    (table.filter E820Entry.usable).foldlM (setupEntryGeneric ps heapStart) s := by
  induction table generalizing s with
  | nil => rfl
  | cons entry table ih =>
      by_cases usable : entry.usable = true
      · rw [List.filter_cons_of_pos usable, List.foldlM_cons, List.foldlM_cons]
        exact congrArg (setupEntryGeneric ps heapStart s entry >>= ·) (funext fun t => ih)
      · rw [List.filter_cons_of_neg usable, List.foldlM_cons, setupEntryGeneric, if_neg usable]
        exact ih

theorem foldlM_later (usable : ∀ e ∈ rest, e.usable = true) (later : s.firstEntry = false)
    (h : rest.foldlM (setupEntryGeneric ps heapStart) s = .ok t) :
    t.heap = { s.heap with additional := s.heap.additional ++ rest.map (pagesOf ps) } ∧
      ∀ e ∈ rest, alignUp e.addr.toNat ps.bytes < alignDown e.endAddress ps.bytes := by
  induction rest generalizing s with
  | nil =>
      cases h
      simp
  | cons entry rest ih =>
      rw [List.foldlM_cons] at h
      obtain ⟨u, first, h⟩ := bind_eq_ok.mp h
      obtain ⟨rfl, pages⟩ := setupEntryGeneric_later (usable entry List.mem_cons_self) later first
      obtain ⟨same, all⟩ := ih (fun e he => usable e (List.mem_cons_of_mem _ he)) rfl h
      constructor
      · rw [same, List.map_cons, List.append_assoc, List.singleton_append]
      · intro e he
        rcases List.mem_cons.mp he with rfl | he
        · exact pages
        · exact all e he

/-- The entries of a table that are used. -/
def usableEntries (table : List E820Entry) : List E820Entry := table.filter E820Entry.usable

/-- The heap that the used entries give. -/
def heapOf (ps : PageSize) (heapStart : Nat) : List E820Entry → HeapRanges
  | [] => .initial
  | entry :: rest => ⟨firstPagesOf ps heapStart entry, rest.map (pagesOf ps)⟩

/-- Where the ranges start and end. -/
def boundsOf (ps : PageSize) (heapStart : Nat) : List E820Entry → List (Nat × Nat)
  | [] => []
  | entry :: rest => (heapStart, alignDown entry.endAddress ps.bytes) ::
      rest.map fun e => (alignUp e.addr.toNat ps.bytes, alignDown e.endAddress ps.bytes)

/-- A setup that returns has used every entry, and none is without a page. -/
theorem setupHeapGeneric_eq_ok (h : setupHeapGeneric ps heapStart table = .ok heap) :
    heap = heapOf ps heapStart (usableEntries table) ∧
      ∀ b ∈ boundsOf ps heapStart (usableEntries table), b.1 < b.2 := by
  obtain ⟨t, run, h⟩ := bind_eq_ok.mp h
  cases h
  rw [foldlM_usable] at run
  have usable : ∀ e ∈ usableEntries table, e.usable = true :=
    fun e he => (List.mem_filter.mp he).2
  change (usableEntries table).foldlM _ _ = _ at run
  generalize usableEntries table = entries at usable run ⊢
  cases entries with
  | nil =>
      cases run
      exact ⟨rfl, fun b hb => absurd hb List.not_mem_nil⟩
  | cons entry rest =>
      rw [List.foldlM_cons] at run
      obtain ⟨u, first, run⟩ := bind_eq_ok.mp run
      obtain ⟨rfl, pages⟩ := setupEntryGeneric_first (usable entry List.mem_cons_self) rfl first
      obtain ⟨same, all⟩ := foldlM_later (fun e he => usable e (List.mem_cons_of_mem _ he)) rfl run
      refine ⟨same, fun b hb => ?_⟩
      rcases List.mem_cons.mp hb with rfl | hb
      · exact pages
      · obtain ⟨e, he, rfl⟩ := List.mem_map.mp hb
        exact all e he

theorem boundsOf_lt {entries : List E820Entry} :
    ∀ b ∈ boundsOf ps heapStart entries, b.2 < 2 ^ 64 := by
  have pages : ∀ e : E820Entry, alignDown e.endAddress ps.bytes < 2 ^ 64 :=
    fun e => Nat.lt_of_le_of_lt (alignDown_le _ _) (u64_lt _)
  cases entries with
  | nil => exact fun b hb => absurd hb List.not_mem_nil
  | cons entry rest =>
      rw [boundsOf, List.forall_mem_cons, List.forall_mem_map]
      exact ⟨pages entry, fun e _ => pages e⟩

/-- The span between two bounds. -/
def rangeOf (b : Nat × Nat) : Span := ⟨b.1, b.2 - b.1⟩

theorem rangeOf_stop {b : Nat × Nat} (less : b.1 < b.2) : (rangeOf b).stop = b.2 :=
  Nat.add_sub_of_le (Nat.le_of_lt less)

theorem ranges_heapOf_cons : (heapOf ps heapStart (entry :: rest)).ranges =
    (boundsOf ps heapStart (entry :: rest)).map rangeOf := by
  rw [boundsOf, List.map_cons, List.map_map]
  rfl

theorem forall_ranges_iff {P : Span → Prop} {entries : List E820Entry} (none : P ⟨0, 0⟩) :
    (∀ r ∈ (heapOf ps heapStart entries).ranges, P r) ↔
      ∀ b ∈ boundsOf ps heapStart entries, P (rangeOf b) := by
  cases entries with
  | nil =>
      refine ⟨fun _ b hb => absurd hb List.not_mem_nil, fun _ r hr => ?_⟩
      rw [List.mem_singleton.mp hr]
      exact none
  | cons entry rest => rw [ranges_heapOf_cons, List.forall_mem_map]

end Ranges

/-! ## The heap and the memory there is -/

section Ram

variable {ps : PageSize} {heapStart : Nat} {table : List E820Entry} {entry : E820Entry}
variable {heap : HeapRanges}

/-- The address is in an entry of type RAM, which does not go on at zero behind the last address. -/
def InRam (table : List E820Entry) (x : Nat) : Prop :=
  ∃ e ∈ table, e.type = e820TypeRam ∧ e.addr.toNat ≤ x ∧ x < e.addr.toNat + e.size.toNat

/-- All of the heap is in RAM, and no address is in two of its ranges. -/
structure HeapIsRam (table : List E820Entry) (heap : HeapRanges) : Prop where
  ram : ∀ r ∈ heap.ranges, ∀ x, r.data ≤ x → x < r.stop → InRam table x
  disjoint : heap.ranges.Pairwise Span.Disjoint

/-- What a table must be for its heap to be RAM. -/
structure RamLayout (ps : PageSize) (heapStart : Nat) (table : List E820Entry) : Prop where
  /-- There is RAM in front of the first entry, from the end of the image on. -/
  gap : ∀ e ∈ (usableEntries table).head?, ∀ x, heapStart ≤ x → x < e.addr.toNat →
    x < alignDown e.endAddress ps.bytes → InRam table x
  /-- An entry that starts in the last page of the address space has its pages start at zero. -/
  top : ∀ e ∈ (usableEntries table).tail, 2 ^ 64 < e.addr.toNat + ps.bytes →
    ∀ x < alignDown e.endAddress ps.bytes, InRam table x
  /-- No two have a page in common. -/
  apart : (boundsOf ps heapStart (usableEntries table)).Pairwise fun a b =>
    min a.2 b.2 ≤ max a.1 b.1

theorem pairwise_ranges_iff {entries : List E820Entry}
    (less : ∀ b ∈ boundsOf ps heapStart entries, b.1 < b.2) :
    (heapOf ps heapStart entries).ranges.Pairwise Span.Disjoint ↔
      (boundsOf ps heapStart entries).Pairwise fun a b => min a.2 b.2 ≤ max a.1 b.1 := by
  cases entries with
  | nil => exact iff_of_true (List.pairwise_singleton _ _) List.Pairwise.nil
  | cons entry rest =>
      rw [ranges_heapOf_cons, List.pairwise_map]
      apply List.Pairwise.iff_of_mem
      intro a b ha hb
      rw [Span.disjoint_iff, rangeOf_stop (less a ha), rangeOf_stop (less b hb)]
      rfl

theorem inRam_of_usable (member : entry ∈ usableEntries table) {x : Nat}
    (lo : entry.addr.toNat ≤ x) (hi : x < alignDown entry.endAddress ps.bytes) :
    InRam table x := by
  obtain ⟨member, usable⟩ := List.mem_filter.mp member
  rw [E820Entry.usable, Bool.and_eq_true, decide_eq_true_eq, decide_eq_true_eq] at usable
  refine ⟨entry, member, usable.2, lo, ?_⟩
  calc x < alignDown entry.endAddress ps.bytes := hi
    _ ≤ entry.endAddress := alignDown_le _ _
    _ ≤ entry.addr.toNat + entry.size.toNat := Nat.mod_le _ _

/-- Behind its own start, an entry is RAM itself. -/
theorem ram_iff : (∀ b ∈ boundsOf ps heapStart (usableEntries table),
      ∀ x, b.1 ≤ x → x < b.2 → InRam table x) ↔
    (∀ e ∈ (usableEntries table).head?, ∀ x, heapStart ≤ x → x < e.addr.toNat →
      x < alignDown e.endAddress ps.bytes → InRam table x) ∧
    ∀ e ∈ (usableEntries table).tail, 2 ^ 64 < e.addr.toNat + ps.bytes →
      ∀ x < alignDown e.endAddress ps.bytes, InRam table x := by
  have own : ∀ e ∈ usableEntries table, ∀ x, e.addr.toNat ≤ x →
      x < alignDown e.endAddress ps.bytes → InRam table x :=
    fun e he x lo hi => inRam_of_usable he lo hi
  generalize usableEntries table = entries at own ⊢
  cases entries with
  | nil => simp [boundsOf]
  | cons first rest =>
      rw [boundsOf, List.forall_mem_cons, List.forall_mem_map]
      refine and_congr ?_ ?_
      · rw [List.head?_cons]
        constructor
        · rintro all e ⟨⟩ x lo - hi
          exact all x lo hi
        · intro gap x lo hi
          by_cases before : x < first.addr.toNat
          · exact gap first rfl x lo before hi
          · exact own first List.mem_cons_self x (Nat.le_of_not_lt before) hi
      · refine forall₂_congr fun e he => ?_
        constructor
        · intro all wraps x hi
          refine all x ?_ hi
          rw [alignUp_of_wrap e.addr.isLt wraps]
          exact Nat.zero_le x
        · intro top x lo hi
          by_cases wraps : 2 ^ 64 < e.addr.toNat + ps.bytes
          · exact top wraps x hi
          · have up := le_alignUp ps.bytes_pos (Nat.le_of_not_lt wraps)
            exact own e (List.mem_cons_of_mem _ he) x (Nat.le_trans up lo) hi

/-- The heap is RAM exactly if the table has RAM in front of the entry that is used first, from the
end of the image on, if none of the others wraps, and if they do not share pages. -/
theorem generic_heap_is_ram_iff (ps : PageSize) (heapStart : Nat) (table : List E820Entry)
    (heap : HeapRanges) (h : setupHeapGeneric ps heapStart table = .ok heap) :
    HeapIsRam table heap ↔ RamLayout ps heapStart table := by
  obtain ⟨rfl, less⟩ := setupHeapGeneric_eq_ok h
  have bytes : (∀ r ∈ (heapOf ps heapStart (usableEntries table)).ranges,
      ∀ x, r.data ≤ x → x < r.stop → InRam table x) ↔
      ∀ b ∈ boundsOf ps heapStart (usableEntries table),
        ∀ x, b.1 ≤ x → x < b.2 → InRam table x := by
    rw [forall_ranges_iff (fun x _ hi => absurd hi (Nat.not_lt_zero x))]
    refine forall₂_congr fun b hb => ?_
    rw [rangeOf_stop (less b hb)]
    rfl
  have apart := pairwise_ranges_iff less
  rw [ram_iff] at bytes
  constructor
  · rintro ⟨ram, disjoint⟩
    exact ⟨(bytes.mp ram).1, (bytes.mp ram).2, apart.mp disjoint⟩
  · rintro ⟨gap, top, pages⟩
    exact ⟨bytes.mpr ⟨gap, top⟩, apart.mpr pages⟩

/-- RAM on both sides of a hole, and other memory in between. -/
def sampleTable : List E820Entry :=
  [⟨0, 0x9f000, 1⟩, ⟨0x100000, 0x700000, 1⟩, ⟨0x900000, 0x200000, 2⟩, ⟨0x1000000, 0x400000, 1⟩]

theorem generic_heap_is_ram_iff_two_ranges :
    HeapIsRam sampleTable ⟨⟨0x200000, 0x600000⟩, [⟨0x1000000, 0x400000⟩]⟩ := by
  have run : setupHeapGeneric .kib4 0x200000 sampleTable =
      .ok ⟨⟨0x200000, 0x600000⟩, [⟨0x1000000, 0x400000⟩]⟩ := by decide +kernel
  have entries : usableEntries sampleTable =
      [⟨0x100000, 0x700000, 1⟩, ⟨0x1000000, 0x400000, 1⟩] := by decide
  apply (generic_heap_is_ram_iff _ _ _ _ run).mpr
  refine ⟨?_, ?_, by decide⟩
  · rw [entries]
    rintro e ⟨⟩ x lo hi
    exact absurd (Nat.lt_of_le_of_lt lo hi) (by decide)
  · rw [entries]
    intro e he wraps
    rw [List.tail_cons, List.mem_singleton] at he
    subst he
    exact absurd wraps (by decide)

/-- An entry above the end of the image, so that the heap starts outside it. And two entries that
overlap. -/
theorem generic_heap_outside_ram :
    (setupHeapGeneric .kib4 0x200000 [⟨0x400000, 0x400000, 1⟩] = .ok ⟨⟨0x200000, 0x600000⟩, []⟩ ∧
      ¬ InRam [⟨0x400000, 0x400000, 1⟩] 0x200000) ∧
    (setupHeapGeneric .kib4 0x200000 [⟨0x100000, 0x700000, 1⟩, ⟨0x400000, 0x800000, 1⟩] =
        .ok ⟨⟨0x200000, 0x600000⟩, [⟨0x400000, 0x800000⟩]⟩ ∧
      ¬ (⟨0x200000, 0x600000⟩ : Span).Disjoint ⟨0x400000, 0x800000⟩) := by
  refine ⟨⟨by decide +kernel, ?_⟩, by decide +kernel, by decide⟩
  rw [InRam]
  decide

end Ram

/-! ## The bounds of the whole heap -/

section Bounds

variable {ps : PageSize} {heapStart : Nat} {table entries : List E820Entry} {entry : E820Entry}
variable {heap : HeapRanges}

/-- The largest valid address and the size are bounds of the heap, the pagemaps cover it, and the
range that is shared with the host is behind it. -/
structure TrueBounds (heap : HeapRanges) : Prop where
  largest : ∀ x, heap.isHeapAddress x = true → x ≤ heap.largestValidAddress
  size_eq : u64 (heap.first.data + heap.size) = u64 (heap.largestValidAddress + 1)
  size_ge : ∀ r ∈ heap.ranges, r.stop ≤ heap.first.data + heap.size
  pagemap : ∀ x, heap.isHeapAddress x = true →
    heap.pagemapRange.data ≤ x ∧ x < heap.pagemapRange.stop
  shared : ∀ r ∈ heap.ranges, (setupHypervisorStage2Hyperv heap).Disjoint r

/-- No entry has pages below the heap, and the entry that comes last has the last page. -/
structure LastOnTop (ps : PageSize) (heapStart : Nat) (table : List E820Entry) : Prop where
  above : ∀ e ∈ (usableEntries table).tail, heapStart ≤ alignUp e.addr.toNat ps.bytes
  last : ∀ e ∈ usableEntries table, ∀ l ∈ (usableEntries table).getLast?,
    alignDown e.endAddress ps.bytes ≤ alignDown l.endAddress ps.bytes

theorem largestValidAddress_add_one (word : heap.last.stop < 2 ^ 64)
    (nonempty : 0 < heap.last.size) : heap.largestValidAddress + 1 = heap.last.stop := by
  have stop : (AddressRange.ofSpan heap.last).stop = heap.last.stop := u64_of_lt word
  have positive : 1 ≤ heap.last.stop := Nat.le_add_left_of_le nonempty
  rw [HeapRanges.largestValidAddress, stop, sub64_of_le word positive]
  exact Nat.sub_add_cancel positive

theorem first_add_size (word : heap.last.stop < 2 ^ 64) (nonempty : 0 < heap.last.size)
    (less : heap.first.data < heap.last.stop) : heap.first.data + heap.size = heap.last.stop := by
  have behind := largestValidAddress_add_one word nonempty
  have start : (AddressRange.ofSpan heap.first).start = heap.first.data := rfl
  rw [HeapRanges.size, start, sub64_of_le (by omega) (by omega), u64_of_lt (by omega)]
  omega

/-- The conditions for a heap without empty ranges. -/
theorem trueBounds_iff (nonempty : ∀ r ∈ heap.ranges, 0 < r.size)
    (word : ∀ r ∈ heap.ranges, r.stop < 2 ^ 64) :
    TrueBounds heap ↔ ∀ r ∈ heap.ranges, heap.first.data ≤ r.data ∧ r.stop ≤ heap.last.stop := by
  have behind := largestValidAddress_add_one (word _ heap.last_mem) (nonempty _ heap.last_mem)
  have less : ∀ r ∈ heap.ranges, r.data < r.stop :=
    fun r hr => Nat.lt_add_of_pos_right (nonempty r hr)
  constructor
  · intro bounds r hr
    have member : ∀ x, r.data ≤ x → x < r.stop → heap.isHeapAddress x = true :=
      fun x lo hi => (HeapRanges.isHeapAddress_iff word).mpr ⟨r, hr, lo, hi⟩
    have some := less r hr
    have first := bounds.pagemap r.data (member r.data (Nat.le_refl _) some)
    have top := bounds.largest (r.stop - 1) (member _ (by omega) (by omega))
    rw [HeapRanges.pagemapRange] at first
    exact ⟨first.1, by omega⟩
  · intro inside
    have size := first_add_size (word _ heap.last_mem) (nonempty _ heap.last_mem)
      (Nat.lt_of_lt_of_le (less _ heap.first_mem) (inside _ heap.first_mem).2)
    have address : ∀ x, heap.isHeapAddress x = true →
        heap.first.data ≤ x ∧ x < heap.last.stop := by
      intro x hx
      obtain ⟨r, hr, lo, hi⟩ := (HeapRanges.isHeapAddress_iff word).mp hx
      exact ⟨Nat.le_trans (inside r hr).1 lo, Nat.lt_of_lt_of_le hi (inside r hr).2⟩
    refine ⟨fun x hx => ?_, ?_, fun r hr => ?_, fun x hx => ?_, fun r hr => ?_⟩
    · have := (address x hx).2
      omega
    · rw [size, behind]
    · rw [size]
      exact (inside r hr).2
    · rw [HeapRanges.pagemapRange, Span.stop, size]
      exact address x hx
    · apply Span.disjoint_of_ge
      rw [setupHypervisorStage2Hyperv, behind, u64_of_lt (word _ heap.last_mem)]
      exact (inside r hr).2

theorem initial_trueBounds : TrueBounds .initial := by
  have none : ∀ x, HeapRanges.initial.isHeapAddress x = false := by
    intro x
    simp [HeapRanges.isHeapAddress, HeapRanges.initial, AddressRange.overlaps,
      AddressRange.ofSpan, u64]
  refine ⟨fun x hx => ?_, by decide, by decide, fun x hx => ?_, by decide⟩
  · rw [none x] at hx
    cases hx
  · rw [none x] at hx
    cases hx

variable {first last : E820Entry} {rest : List E820Entry}

theorem last_heapOf (hl : last ∈ (first :: rest).getLast?)
    (less : ∀ b ∈ boundsOf ps heapStart (first :: rest), b.1 < b.2) :
    (heapOf ps heapStart (first :: rest)).last.stop = alignDown last.endAddress ps.bytes := by
  rcases List.eq_nil_or_concat rest with rfl | ⟨front, final, rfl⟩
  · cases hl
    exact rangeOf_stop (less _ List.mem_cons_self)
  · rw [List.concat_eq_append] at *
    have same : final = last := by simpa [List.getLast?_cons] using hl
    subst same
    have ranges : (heapOf ps heapStart (first :: (front ++ [final]))).last = pagesOf ps final := by
      rw [heapOf, HeapRanges.last, List.map_append, List.map_singleton, List.getLastD_concat]
    rw [ranges]
    have member : (alignUp final.addr.toNat ps.bytes, alignDown final.endAddress ps.bytes) ∈
        boundsOf ps heapStart (first :: (front ++ [final])) := by simp [boundsOf]
    exact rangeOf_stop (less _ member)

/-- A heap with a range has its bounds right exactly if no entry has pages in front of the first
range and the last one ends on top. -/
theorem lastOnTop_iff (entries : usableEntries table = first :: rest)
    (less : ∀ b ∈ boundsOf ps heapStart (first :: rest), b.1 < b.2) :
    (∀ r ∈ (heapOf ps heapStart (first :: rest)).ranges,
      heapStart ≤ r.data ∧ r.stop ≤ (heapOf ps heapStart (first :: rest)).last.stop) ↔
      LastOnTop ps heapStart table := by
  obtain ⟨last, hl⟩ : ∃ last, (first :: rest).getLast? = some last :=
    ⟨_, List.getLast?_eq_some_getLast (List.cons_ne_nil first rest)⟩
  have stop := last_heapOf hl less
  have bounds : (∀ r ∈ (heapOf ps heapStart (first :: rest)).ranges,
      heapStart ≤ r.data ∧ r.stop ≤ (heapOf ps heapStart (first :: rest)).last.stop) ↔
      ∀ b ∈ boundsOf ps heapStart (first :: rest),
        heapStart ≤ b.1 ∧ b.2 ≤ alignDown last.endAddress ps.bytes := by
    rw [ranges_heapOf_cons, List.forall_mem_map, stop]
    refine forall₂_congr fun b hb => ?_
    rw [rangeOf_stop (less b hb)]
    rfl
  rw [bounds, boundsOf, List.forall_mem_cons, List.forall_mem_map]
  constructor
  · rintro ⟨head, tail⟩
    refine ⟨fun e he => ?_, fun e he l h => ?_⟩
    · rw [entries] at he
      exact (tail e he).1
    · rw [entries] at he h
      rw [hl] at h
      cases h
      rcases List.mem_cons.mp he with rfl | he
      · exact head.2
      · exact (tail e he).2
  · rintro ⟨above, top⟩
    rw [entries] at above top
    refine ⟨⟨Nat.le_refl _, top first List.mem_cons_self last hl⟩, fun e he => ⟨above e he, ?_⟩⟩
    exact top e (List.mem_cons_of_mem _ he) last hl

/-- The bounds of the heap are true exactly if the entry that comes last ends on top of all others
and none has pages in front of the heap. -/
theorem generic_heap_bounds_iff (ps : PageSize) (heapStart : Nat) (table : List E820Entry)
    (heap : HeapRanges) (h : setupHeapGeneric ps heapStart table = .ok heap) :
    TrueBounds heap ↔ LastOnTop ps heapStart table := by
  obtain ⟨rfl, less⟩ := setupHeapGeneric_eq_ok h
  cases entries : usableEntries table with
  | nil =>
      refine iff_of_true initial_trueBounds ⟨?_, ?_⟩
      · rw [entries]
        exact fun e he => absurd he List.not_mem_nil
      · rw [entries]
        exact fun e he => absurd he List.not_mem_nil
  | cons first rest =>
      rw [entries] at less
      rw [← lastOnTop_iff entries less]
      apply trueBounds_iff
      · rw [ranges_heapOf_cons, List.forall_mem_map]
        intro b hb
        exact Nat.sub_pos_of_lt (less b hb)
      · rw [ranges_heapOf_cons, List.forall_mem_map]
        intro b hb
        rw [rangeOf_stop (less b hb)]
        exact boundsOf_lt b hb

theorem generic_heap_bounds_iff_two_ranges :
    TrueBounds ⟨⟨0x200000, 0x600000⟩, [⟨0x1000000, 0x400000⟩]⟩ := by
  have run : setupHeapGeneric .kib4 0x200000 sampleTable =
      .ok ⟨⟨0x200000, 0x600000⟩, [⟨0x1000000, 0x400000⟩]⟩ := by decide +kernel
  apply (generic_heap_bounds_iff _ _ _ _ run).mpr
  have entries : usableEntries sampleTable =
      [⟨0x100000, 0x700000, 1⟩, ⟨0x1000000, 0x400000, 1⟩] := by decide
  refine ⟨by decide, ?_⟩
  rw [entries]
  decide

/-- The heap of three entries that do not overlap, of which the last is not the highest. -/
def unorderedHeap : HeapRanges :=
  ⟨⟨0x200000, 0x600000⟩, [⟨0x1000000, 0x400000⟩, ⟨0x900000, 0x100000⟩]⟩

/-- Its largest valid address is in the middle, its pagemaps end there, and the range that is shared
with the host goes over memory of the heap. -/
theorem generic_heap_bounds_unordered :
    setupHeapGeneric .kib4 0x200000
      [⟨0x100000, 0x700000, 1⟩, ⟨0x1000000, 0x400000, 1⟩, ⟨0x900000, 0x100000, 1⟩] =
        .ok unorderedHeap ∧
    unorderedHeap.isHeapAddress 0x1000000 = true ∧
    unorderedHeap.largestValidAddress = 0x9fffff ∧ unorderedHeap.pagemapRange.stop = 0xa00000 ∧
    ¬ (setupHypervisorStage2Hyperv unorderedHeap).Disjoint ⟨0x1000000, 0x400000⟩ := by
  decide +kernel

end Bounds

end Monza
