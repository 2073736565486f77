import Monza.Heap

/-!
# Setting up the heap under SEV

The only description of memory is a map that the loader leaves in an unmeasured page, so
the host chooses every word of it. `setup_heap_sev` goes over the map once. It keeps what
lies below the virtual top of memory as heap and the rest of one entry as memory that can
be shared with the host, and it accepts the heap as private memory page by page.

An assertion of the kernel logs and goes on, so it does not appear here. Nor does the
result of `pvalidate`, which the kernel ignores.
-/

namespace Monza.Sev

open Outcome

def hvPageSize : Nat := 4096

def rmpGranularity : Nat := 4096

structure SevMemoryMapEntry where
  gpaPageOffset : UInt64
  pageCount : UInt64
  flags : UInt64
  deriving DecidableEq, Repr

namespace SevMemoryMapEntry

variable (entry : SevMemoryMapEntry)

def isNull : Bool := entry.gpaPageOffset == 0 && entry.pageCount == 0 && entry.flags == 0

def address : Nat := u64 (entry.gpaPageOffset.toNat * hvPageSize)

def size : Nat := u64 (entry.pageCount.toNat * hvPageSize)

def endAddress : Nat := u64 (entry.address + entry.size)

end SevMemoryMapEntry

/-- The array of `UnmeasuredLoaderData`. -/
abbrev MemoryMap := Vector SevMemoryMapEntry 32

/-- The entries up to the null entry that ends the map. -/
def MemoryMap.entries (map : MemoryMap) : List SevMemoryMapEntry :=
  map.toList.takeWhile (fun entry => !entry.isNull)

/-- The loop of `accept_private_memory` visits no more pages than there are. -/
def acceptBudget : Nat := 2 ^ 52 + 1

/-- The addresses given to `pvalidate`, in order. -/
def acceptPrivateMemory (range : AddressRange) : Result (List Nat) :=
  loop .diverge (fun address => decide (address < range.stop))
    (fun address => u64 (address + rmpGranularity)) (fun address pages => .ok (pages ++ [address]))
    acceptBudget range.start []

/-- The variables of the loop and the static ones it sets. -/
structure HeapSetup where
  firstEntry : Bool
  firstVtomEntry : Bool
  lastEntryEndAddress : Nat
  aboveVtomMemoryRange : Span
  heap : HeapRanges
  deriving DecidableEq, Repr

def HeapSetup.initial : HeapSetup := ⟨true, true, 0, ⟨0, 0⟩, .initial⟩

/-- What `setup_heap_sev` leaves behind. -/
structure SevMemory where
  heap : HeapRanges
  aboveVtomMemoryRange : Span
  validated : List Nat
  deriving DecidableEq, Repr

section Definitions

variable (ps : PageSize) (heapStart vtom : Nat)

/-- The end of an iteration: hand what is left of the entry to the heap. -/
def addRange (entryAddress currentEnd entrySize : Nat) (s : HeapSetup) : Result HeapSetup :=
  if entrySize = 0 then .ok s
  else if s.firstEntry then do
    let heap ← s.heap.setFirst ps ⟨heapStart, sub64 currentEnd heapStart⟩
    .ok { s with heap := heap, firstEntry := false }
  else do
    let heap ← s.heap.add ps ⟨entryAddress, entrySize⟩
    .ok { s with heap := heap }

/-- What lies behind the virtual top of memory goes to the host, for the first such entry. -/
def carve (entry : SevMemoryMapEntry) (s : HeapSetup) : Result HeapSetup :=
  if vtom ≠ 0 ∧ entry.endAddress > vtom then
    if s.firstVtomEntry then
      let aboveVtomSize := sub64 entry.endAddress vtom
      addRange ps heapStart entry.address vtom (sub64 entry.size aboveVtomSize)
        { s with aboveVtomMemoryRange := ⟨vtom, aboveVtomSize⟩, firstVtomEntry := false }
    else .ok s
  else addRange ps heapStart entry.address entry.endAddress entry.size s

/-- One iteration, for an entry that is not null. -/
def setupEntry (entry : SevMemoryMapEntry) (s : HeapSetup) : Result HeapSetup :=
  if entry.size = 0 then .error .kabort
  else if entry.endAddress < entry.address ∨ entry.endAddress > 2 ^ 48 then .error .kabort
  else if entry.address < s.lastEntryEndAddress then .error .kabort
  else if s.firstEntry ∧ (heapStart < entry.address ∨ heapStart ≥ entry.endAddress) then
    .error .kabort
  else carve ps heapStart vtom entry { s with lastEntryEndAddress := entry.endAddress }

def setupEntries : List SevMemoryMapEntry → HeapSetup → Result HeapSetup
  | [], s => .ok s
  | entry :: entries, s =>
    if entry.isNull then .ok s
    else setupEntry ps heapStart vtom entry s >>= setupEntries entries

def setupHeapSev (map : MemoryMap) : Result SevMemory :=
  if vtom ≠ 0 ∧ (heapStart ≥ vtom ∨ vtom % ps.bytes ≠ 0) then .error .kabort
  else do
    let s ← setupEntries ps heapStart vtom map.toList .initial
    if vtom ≠ 0 ∧ s.aboveVtomMemoryRange.size = 0 then .error .kabort
    else do
      let heapRange := AddressRange.ofBounds heapStart (u64 (s.heap.largestValidAddress + 1))
      let validated ← acceptPrivateMemory (heapRange.alignUpStart ps.bytes)
      .ok ⟨s.heap, s.aboveVtomMemoryRange, validated⟩

end Definitions

variable {ps : PageSize} {heapStart vtom : Nat} {entry : SevMemoryMapEntry}
variable {entries : List SevMemoryMapEntry} {s t : HeapSetup}

section Step

/-- The rules for an entry, before any part of it is used. -/
structure Accepted (heapStart : Nat) (entry : SevMemoryMapEntry) (s : HeapSetup) : Prop where
  stop : entry.endAddress = entry.address + entry.size
  nonempty : entry.address < entry.endAddress
  bound : entry.endAddress ≤ 2 ^ 48
  behind : s.lastEntryEndAddress ≤ entry.address
  covers : s.firstEntry = true → entry.address ≤ heapStart ∧ heapStart < entry.endAddress

theorem setupEntry_eq_ok (h : setupEntry ps heapStart vtom entry s = .ok t) :
    Accepted heapStart entry s ∧
      carve ps heapStart vtom entry { s with lastEntryEndAddress := entry.endAddress } = .ok t := by
  obtain ⟨nonempty, h⟩ := guard_eq_ok.mp h
  obtain ⟨fits, h⟩ := guard_eq_ok.mp h
  obtain ⟨behind, h⟩ := guard_eq_ok.mp h
  obtain ⟨covers, h⟩ := guard_eq_ok.mp h
  have small : entry.address < 2 ^ 64 := u64_lt _
  have small' : entry.size < 2 ^ 64 := u64_lt _
  have stop : entry.endAddress = entry.address + entry.size := by
    simp only [SevMemoryMapEntry.endAddress, u64] at fits ⊢
    omega
  refine ⟨⟨stop, by omega, by omega, Nat.le_of_not_lt behind, fun first => ?_⟩, h⟩
  have inside := not_or.mp fun outside => covers ⟨first, outside⟩
  omega

/-- What is left of an entry that is carved, in the arithmetic of `size_t`. -/
theorem carvedSize (accepted : Accepted heapStart entry s) (reach : vtom < entry.endAddress) :
    sub64 entry.size (sub64 entry.endAddress vtom) = sub64 vtom entry.address := by
  have stop := accepted.stop
  have bound := accepted.bound
  rw [sub64_of_le (Nat.lt_of_le_of_lt bound (by decide)) (Nat.le_of_lt reach), sub64, sub64, stop]
  congr 1
  omega

/-- An accepted entry is carved, ignored or taken whole. -/
theorem setupEntry_cases (h : setupEntry ps heapStart vtom entry s = .ok t) :
    Accepted heapStart entry s ∧
      ((vtom ≠ 0 ∧ vtom < entry.endAddress ∧ s.firstVtomEntry = true ∧
          addRange ps heapStart entry.address vtom (sub64 vtom entry.address)
            { s with
              firstVtomEntry := false
              lastEntryEndAddress := entry.endAddress
              aboveVtomMemoryRange := ⟨vtom, sub64 entry.endAddress vtom⟩ } = .ok t) ∨
        (vtom ≠ 0 ∧ vtom < entry.endAddress ∧ s.firstVtomEntry = false ∧
          t = { s with lastEntryEndAddress := entry.endAddress }) ∨
        ((vtom = 0 ∨ entry.endAddress ≤ vtom) ∧
          addRange ps heapStart entry.address entry.endAddress entry.size
            { s with lastEntryEndAddress := entry.endAddress } = .ok t)) := by
  obtain ⟨accepted, h⟩ := setupEntry_eq_ok h
  refine ⟨accepted, ?_⟩
  rw [carve] at h
  split at h
  next reach =>
    split at h
    next first =>
      have run := h
      simp only [carvedSize accepted reach.2] at run
      exact .inl ⟨reach.1, reach.2, first, run⟩
    next first =>
      cases h
      exact .inr (.inl ⟨reach.1, reach.2, Bool.eq_false_of_not_eq_true first, rfl⟩)
  next within => exact .inr (.inr ⟨by omega, h⟩)

/-- The first range starts at the heap, wherever the first entry does. -/
theorem addRange_first {entryAddress currentEnd entrySize : Nat}
    (h : addRange ps heapStart entryAddress currentEnd entrySize s = .ok t)
    (first : s.firstEntry = true) (used : entrySize ≠ 0) (less : heapStart < currentEnd)
    (bound : currentEnd < 2 ^ 64) :
    ∃ r : Span, t = { s with heap := { s.heap with first := r }, firstEntry := false } ∧
      r.data = heapStart ∧ r.stop = alignDown currentEnd ps.bytes ∧ 0 < r.size := by
  rw [addRange, if_neg used, if_pos first] at h
  obtain ⟨heap, hheap, h⟩ := bind_eq_ok.mp h
  obtain ⟨r, hr, hheap⟩ := bind_eq_ok.mp hheap
  cases h
  cases hheap
  have stop := (Span.stop_sub64 less bound).1
  have range := HeapRanges.alignEnd_eq_ok (by rwa [stop]) hr
  rw [stop] at range
  exact ⟨r, rfl, range⟩

theorem addRange_later {entryAddress currentEnd entrySize : Nat}
    (h : addRange ps heapStart entryAddress currentEnd entrySize s = .ok t)
    (later : s.firstEntry = false) (used : entrySize ≠ 0)
    (bound : entryAddress + ps.bytes ≤ 2 ^ 64) :
    ∃ r : Span, t = { s with heap := { s.heap with additional := s.heap.additional ++ [r] } } ∧
      r.data = alignUp entryAddress ps.bytes ∧
      r.stop = alignDown (u64 (entryAddress + entrySize)) ps.bytes ∧ 0 < r.size := by
  rw [addRange, if_neg used, if_neg (by simp [later])] at h
  obtain ⟨heap, hheap, h⟩ := bind_eq_ok.mp h
  obtain ⟨-, hheap⟩ := guard_eq_ok.mp hheap
  obtain ⟨r, hr, hheap⟩ := bind_eq_ok.mp hheap
  cases h
  cases hheap
  have word : entryAddress < 2 ^ 64 :=
    Nat.lt_of_lt_of_le (Nat.lt_add_of_pos_right ps.bytes_pos) bound
  exact ⟨r, rfl, HeapRanges.align_eq_ok word hr⟩

end Step

section Progress

/-- The part of an entry that is private memory ends here, in whole pages. -/
def privateEnd (ps : PageSize) (vtom : Nat) (entry : SevMemoryMapEntry) : Nat :=
  alignDown (if vtom = 0 then entry.endAddress else min vtom entry.endAddress) ps.bytes

/-- Entries with private memory. -/
def IsPrivate (vtom : Nat) (entry : SevMemoryMapEntry) : Prop := vtom = 0 ∨ entry.address < vtom

instance : DecidablePred (IsPrivate vtom) := fun _ => inferInstanceAs (Decidable (_ ∨ _))

/-- The end of private memory in terms of the map: that of the last entry that has any. -/
def lastPrivateEnd (ps : PageSize) (vtom : Nat) (entries : List SevMemoryMapEntry) : Nat :=
  ((entries.filter (IsPrivate vtom ·)).getLast?.map (privateEnd ps vtom)).getD 0

theorem lastPrivateEnd_append (entries : List SevMemoryMapEntry) (entry : SevMemoryMapEntry) :
    lastPrivateEnd ps vtom (entries ++ [entry]) =
      if IsPrivate vtom entry then privateEnd ps vtom entry
      else lastPrivateEnd ps vtom entries := by
  by_cases h : IsPrivate vtom entry <;> simp [lastPrivateEnd, h]

theorem privateEnd_le (entry : SevMemoryMapEntry) :
    privateEnd ps vtom entry ≤ entry.endAddress := by
  refine Nat.le_trans (alignDown_le _ _) ?_
  split
  · exact Nat.le_refl _
  · exact Nat.min_le_right _ _

theorem privateEnd_le_vtom (entry : SevMemoryMapEntry) (used : vtom ≠ 0) :
    privateEnd ps vtom entry ≤ vtom := by
  rw [privateEnd, if_neg used]
  exact Nat.le_trans (alignDown_le _ _) (Nat.min_le_left _ _)

theorem privateEnd_of_le (h : vtom = 0 ∨ entry.endAddress ≤ vtom) :
    privateEnd ps vtom entry = alignDown entry.endAddress ps.bytes := by
  rw [privateEnd]
  split
  · rfl
  · rw [Nat.min_eq_right (h.resolve_left ‹_›)]

theorem privateEnd_of_lt (used : vtom ≠ 0) (h : vtom < entry.endAddress) :
    privateEnd ps vtom entry = alignDown vtom ps.bytes := by
  rw [privateEnd, if_neg used, Nat.min_eq_left (Nat.le_of_lt h)]

/-- A heap range within an entry, below the virtual top of memory. -/
structure Placed (ps : PageSize) (vtom : Nat) (entries : List SevMemoryMapEntry) (bound : Nat)
    (r : Span) : Prop where
  nonempty : 0 < r.size
  alignedEnd : r.stop % ps.bytes = 0
  bound : r.stop ≤ bound
  inside : ∃ entry ∈ entries, entry.address ≤ r.data ∧ r.stop ≤ entry.endAddress
  below : vtom ≠ 0 → r.stop ≤ vtom

theorem Placed.of_privateEnd {r : Span} (nonempty : 0 < r.size)
    (stop : r.stop = privateEnd ps vtom entry) (mem : entry ∈ entries)
    (start : entry.address ≤ r.data) : Placed ps vtom entries entry.endAddress r := by
  have bound : r.stop ≤ entry.endAddress := stop ▸ privateEnd_le entry
  refine ⟨nonempty, ?_, bound, ⟨entry, mem, start, bound⟩, fun used => ?_⟩
  · rw [stop]
    exact alignDown_mod _ _
  · rw [stop]
    exact privateEnd_le_vtom entry used

theorem Placed.mono {more : List SevMemoryMapEntry} {low high : Nat} {r : Span} (h : low ≤ high)
    (range : Placed ps vtom entries low r) : Placed ps vtom (entries ++ more) high r := by
  obtain ⟨entry, mem, inside⟩ := range.inside
  exact ⟨range.nonempty, range.alignedEnd, Nat.le_trans range.bound h,
    ⟨entry, List.mem_append_left more mem, inside⟩, range.below⟩

/-- The memory behind the virtual top of memory, once an entry reaches there. -/
structure Carved (vtom : Nat) (entries : List SevMemoryMapEntry) (above : Span) : Prop where
  start : above.data = vtom
  nonempty : 0 < above.size
  inside : ∃ entry ∈ entries, entry.address ≤ above.data ∧ above.stop ≤ entry.endAddress

/-- How far the memory of the host has come with an entry. -/
structure Above (vtom : Nat) (entries : List SevMemoryMapEntry) (stop : Nat) (first : Bool)
    (above : Span) : Prop where
  unused : first = true → above.size = 0 ∧ (vtom ≠ 0 → stop ≤ vtom)
  carved : first = false → Carved vtom entries above ∧ vtom < stop

theorem Above.mono {low high : Nat} {first : Bool} {above : Span} (h : low ≤ high)
    (within : first = true → vtom ≠ 0 → high ≤ vtom) (host : Above vtom entries low first above)
    (more : List SevMemoryMapEntry) : Above vtom (entries ++ more) high first above := by
  refine ⟨fun unused => ⟨(host.unused unused).1, within unused⟩, fun used => ?_⟩
  obtain ⟨⟨start, nonempty, other, mem, inside⟩, behind⟩ := host.carved used
  exact ⟨⟨start, nonempty, other, List.mem_append_left more mem, inside⟩,
    Nat.lt_of_lt_of_le behind h⟩

/-- The first entry that reaches behind the virtual top of memory, if it starts below. -/
theorem Above.of_carved (accepted : Accepted heapStart entry s) (reach : vtom < entry.endAddress)
    (start : entry.address ≤ vtom) (entries : List SevMemoryMapEntry) :
    Above vtom (entries ++ [entry]) entry.endAddress false
      ⟨vtom, sub64 entry.endAddress vtom⟩ := by
  refine ⟨fun h => absurd h Bool.false_ne_true, fun _ => ⟨⟨rfl, ?_, ?_⟩, reach⟩⟩
  all_goals
    have stop := Span.stop_sub64 reach (Nat.lt_of_le_of_lt accepted.bound (by decide))
  · exact stop.2
  · exact ⟨entry, List.mem_append_right _ (List.mem_singleton_self entry), start,
      Nat.le_of_eq stop.1⟩

/-- What holds after an entry, with the entries so far. -/
structure Progress (ps : PageSize) (heapStart vtom : Nat) (entries : List SevMemoryMapEntry)
    (s : HeapSetup) : Prop where
  later : s.firstEntry = false
  start : s.heap.first.data = heapStart
  placed : ∀ r ∈ s.heap.ranges, Placed ps vtom entries s.lastEntryEndAddress r
  alignedStart : ∀ r ∈ s.heap.additional, r.data % ps.bytes = 0
  ascending : s.heap.ranges.Pairwise fun r q => r.stop ≤ q.data
  stop : s.heap.last.stop = lastPrivateEnd ps vtom entries
  bound : s.lastEntryEndAddress ≤ 2 ^ 48
  host : Above vtom entries s.lastEntryEndAddress s.firstVtomEntry s.aboveVtomMemoryRange

namespace Progress

variable {above : Span} {first : Bool}

/-- The private part of the first entry, from the start of the heap. -/
theorem single (accepted : Accepted heapStart entry .initial) (isPrivate : IsPrivate vtom entry)
    {r : Span} (data : r.data = heapStart) (stop : r.stop = privateEnd ps vtom entry)
    (nonempty : 0 < r.size) (host : Above vtom [entry] entry.endAddress first above) :
    Progress ps heapStart vtom [entry] ⟨false, first, entry.endAddress, above, ⟨r, []⟩⟩ := by
  have placed : Placed ps vtom [entry] entry.endAddress r :=
    .of_privateEnd nonempty stop (List.mem_singleton_self entry) (data ▸ (accepted.covers rfl).1)
  refine ⟨rfl, data, fun q hq => ?_, fun q hq => ?_, List.pairwise_singleton _ _, ?_,
    accepted.bound, host⟩
  · rw [List.mem_singleton.mp hq]
    exact placed
  · cases hq
  · exact stop.trans ((lastPrivateEnd_append [] entry).trans (if_pos isPrivate)).symm

/-- The private part of an entry becomes a further range. -/
theorem extend (h : Progress ps heapStart vtom entries s) (accepted : Accepted heapStart entry s)
    (isPrivate : IsPrivate vtom entry) {r : Span} (data : r.data = alignUp entry.address ps.bytes)
    (stop : r.stop = privateEnd ps vtom entry) (nonempty : 0 < r.size)
    (host : Above vtom (entries ++ [entry]) entry.endAddress first above) :
    Progress ps heapStart vtom (entries ++ [entry])
      { s with
        firstVtomEntry := first
        lastEntryEndAddress := entry.endAddress
        aboveVtomMemoryRange := above
        heap := { s.heap with additional := s.heap.additional ++ [r] } } := by
  have grow : s.lastEntryEndAddress ≤ entry.endAddress :=
    Nat.le_trans accepted.behind (Nat.le_of_lt accepted.nonempty)
  have start : entry.address ≤ r.data := by
    rw [data]
    refine le_alignUp ps.bytes_pos ?_
    have := accepted.bound
    have := accepted.nonempty
    have := ps.bytes_le
    omega
  have placed : Placed ps vtom (entries ++ [entry]) entry.endAddress r :=
    .of_privateEnd nonempty stop (List.mem_append_right _ (List.mem_singleton_self entry)) start
  refine ⟨h.later, h.start, fun q hq => ?_, fun q hq => ?_, ?_, ?_, accepted.bound, host⟩
  · change q ∈ s.heap.first :: (s.heap.additional ++ [r]) at hq
    rcases List.mem_cons.mp hq with rfl | hq
    · exact (h.placed _ (List.mem_cons_self ..)).mono grow
    · rcases List.mem_append.mp hq with hq | hq
      · exact (h.placed q (List.mem_cons_of_mem _ hq)).mono grow
      · rw [List.mem_singleton.mp hq]
        exact placed
  · rcases List.mem_append.mp hq with hq | hq
    · exact h.alignedStart q hq
    · rw [List.mem_singleton.mp hq, data]
      exact alignUp_mod _ _
  · change (s.heap.ranges ++ [r]).Pairwise _
    refine List.pairwise_append.mpr ⟨h.ascending, List.pairwise_singleton _ _, fun q hq p hp => ?_⟩
    rw [List.mem_singleton.mp hp]
    exact Nat.le_trans (h.placed q hq).bound (Nat.le_trans accepted.behind start)
  · rw [lastPrivateEnd_append, if_pos isPrivate, ← stop]
    simp [HeapRanges.last]

/-- An entry without private memory leaves the heap as it is. -/
theorem skip (h : Progress ps heapStart vtom entries s) (accepted : Accepted heapStart entry s)
    (isPrivate : ¬ IsPrivate vtom entry)
    (host : Above vtom (entries ++ [entry]) entry.endAddress first above) :
    Progress ps heapStart vtom (entries ++ [entry])
      { s with
        firstVtomEntry := first
        lastEntryEndAddress := entry.endAddress
        aboveVtomMemoryRange := above } := by
  have grow : s.lastEntryEndAddress ≤ entry.endAddress :=
    Nat.le_trans accepted.behind (Nat.le_of_lt accepted.nonempty)
  refine ⟨h.later, h.start, fun q hq => (h.placed q hq).mono grow, h.alignedStart, h.ascending, ?_,
    accepted.bound, host⟩
  rw [lastPrivateEnd_append, if_neg isPrivate]
  exact h.stop

theorem start_of_step (top : vtom ≠ 0 → heapStart < vtom)
    (run : setupEntry ps heapStart vtom entry .initial = .ok t) :
    Progress ps heapStart vtom [entry] t := by
  obtain ⟨accepted, cases⟩ := setupEntry_cases run
  obtain ⟨start, covers⟩ := accepted.covers rfl
  have bound := accepted.bound
  rcases cases with ⟨used, reach, -, run⟩ | ⟨-, -, first, -⟩ | ⟨within, run⟩
  · have below := Nat.lt_of_le_of_lt start (top used)
    have size := (Span.stop_sub64 below (by omega)).2
    obtain ⟨r, rfl, data, stop, size⟩ := addRange_first run rfl (by omega) (top used) (by omega)
    rw [← privateEnd_of_lt used reach] at stop
    exact single accepted (.inr below) data stop size
      (.of_carved accepted reach (Nat.le_of_lt below) [])
  · exact absurd first Bool.true_eq_false_eq_False
  · have used : entry.size ≠ 0 := by
      have := accepted.stop
      have := accepted.nonempty
      omega
    obtain ⟨r, rfl, data, stop, size⟩ := addRange_first run rfl used covers (by omega)
    rw [← privateEnd_of_le within] at stop
    refine single accepted (within.imp_right fun h => by omega) data stop size ⟨fun _ => ?_, ?_⟩
    · exact ⟨rfl, fun used => within.resolve_left used⟩
    · exact fun h => absurd h Bool.true_eq_false_eq_False

theorem step (aligned : vtom % ps.bytes = 0) (h : Progress ps heapStart vtom entries s)
    (run : setupEntry ps heapStart vtom entry s = .ok t) :
    Progress ps heapStart vtom (entries ++ [entry]) t := by
  obtain ⟨accepted, cases⟩ := setupEntry_cases run
  have bound := accepted.bound
  have nonempty := accepted.nonempty
  have behind := accepted.behind
  have room : entry.address + ps.bytes ≤ 2 ^ 64 := by
    have := ps.bytes_le
    omega
  rcases cases with ⟨used, reach, first, run⟩ | ⟨used, reach, first, rfl⟩ | ⟨within, run⟩
  · rcases Nat.lt_trichotomy entry.address vtom with start | start | start
    · obtain ⟨whole, size⟩ := Span.stop_sub64 start (by omega)
      obtain ⟨r, rfl, data, stop, size⟩ := addRange_later run h.later (by omega) room
      rw [Span.stop] at whole
      rw [whole, u64_of_lt (by omega), ← privateEnd_of_lt used reach] at stop
      exact h.extend accepted (.inr start) data stop size
        (.of_carved accepted reach (Nat.le_of_lt start) entries)
    · have none : sub64 vtom entry.address = 0 := by
        rw [start, sub64_of_le (by omega) (Nat.le_refl _), Nat.sub_self]
      rw [addRange, if_pos none] at run
      cases run
      refine h.skip accepted ?_ (.of_carved accepted reach (Nat.le_of_eq start) entries)
      rintro (zero | less)
      · exact used zero
      · omega
    · -- the wrapped size ends the entry at the virtual top of memory, before its start
      have whole : u64 (entry.address + sub64 vtom entry.address) = vtom := by
        rw [sub64, u64, u64]
        omega
      have nonzero : sub64 vtom entry.address ≠ 0 := by
        rw [sub64, u64]
        omega
      obtain ⟨r, -, data, stop, size⟩ := addRange_later run h.later nonzero room
      rw [whole, alignDown_of_mod aligned, Span.stop] at stop
      have := le_alignUp ps.bytes_pos room
      omega
  · have carved := (h.host.carved first).2
    refine h.skip accepted ?_ (h.host.mono (by omega) (by simp [first]) [entry])
    rintro (zero | less)
    · exact used zero
    · omega
  · have used : entry.size ≠ 0 := by
      have := accepted.stop
      omega
    obtain ⟨r, rfl, data, stop, size⟩ := addRange_later run h.later used room
    rw [← accepted.stop, u64_of_lt (by omega), ← privateEnd_of_le within] at stop
    exact h.extend accepted (within.imp_right fun h => by omega) data stop size
      (h.host.mono (by omega) (fun _ used => within.resolve_left used) [entry])

theorem run (aligned : vtom % ps.bytes = 0) {rest : List SevMemoryMapEntry}
    (h : Progress ps heapStart vtom entries s)
    (run : setupEntries ps heapStart vtom rest s = .ok t) :
    Progress ps heapStart vtom (entries ++ rest.takeWhile fun entry => !entry.isNull) t := by
  induction rest generalizing entries s with
  | nil =>
      cases run
      rwa [List.takeWhile_nil, List.append_nil]
  | cons entry rest ih =>
      rw [setupEntries] at run
      split at run
      next null =>
        cases run
        rwa [List.takeWhile_cons_of_neg (by simp [null]), List.append_nil]
      next null =>
        obtain ⟨u, first, run⟩ := bind_eq_ok.mp run
        have last := ih (h.step aligned first) run
        rw [List.append_assoc] at last
        rwa [List.takeWhile_cons_of_pos (by simp [null])]

/-- Ranges that are not empty ascend strictly. -/
theorem ascending_of_placed (h : Progress ps heapStart vtom entries s) :
    s.heap.ranges.Pairwise fun r q => r.data < q.data ∧ r.stop ≤ q.data := by
  refine h.ascending.imp_of_mem fun {r q} hr _ le => ⟨?_, le⟩
  have nonempty := (h.placed r hr).nonempty
  rw [Span.stop] at le
  omega

theorem carved_of_nonempty (h : Progress ps heapStart vtom entries s)
    (nonempty : s.aboveVtomMemoryRange.size ≠ 0) : Carved vtom entries s.aboveVtomMemoryRange := by
  cases first : s.firstVtomEntry with
  | true => exact absurd (h.host.unused first).1 nonempty
  | false => exact (h.host.carved first).1

end Progress

end Progress

variable {map : MemoryMap} {m : SevMemory}

section Setup

/-- What a finished setup has gone through. -/
theorem setupHeapSev_eq_ok (h : setupHeapSev ps heapStart vtom map = .ok m) :
    (vtom ≠ 0 → heapStart < vtom ∧ vtom % ps.bytes = 0) ∧
      ∃ s validated, setupEntries ps heapStart vtom map.toList .initial = .ok s ∧
        (vtom ≠ 0 → s.aboveVtomMemoryRange.size ≠ 0) ∧
        acceptPrivateMemory ((AddressRange.ofBounds heapStart
          (u64 (s.heap.largestValidAddress + 1))).alignUpStart ps.bytes) = .ok validated ∧
        m = ⟨s.heap, s.aboveVtomMemoryRange, validated⟩ := by
  obtain ⟨top, h⟩ := guard_eq_ok.mp h
  obtain ⟨s, run, h⟩ := bind_eq_ok.mp h
  obtain ⟨above, h⟩ := guard_eq_ok.mp h
  obtain ⟨validated, accept, h⟩ := bind_eq_ok.mp h
  cases h
  refine ⟨fun used => ?_, s, validated, run, fun used none => above ⟨used, none⟩, accept, rfl⟩
  have := not_or.mp fun outside => top ⟨used, outside⟩
  omega

/-- Every accepted entry ends below `2 ^ 48`. -/
theorem endAddress_le_of_setup (run : setupEntries ps heapStart vtom entries s = .ok t) :
    ∀ e ∈ entries.takeWhile (fun e => !e.isNull), e.endAddress ≤ 2 ^ 48 := by
  induction entries generalizing s with
  | nil => simp
  | cons entry entries ih =>
      rw [setupEntries] at run
      split at run
      next null => simp [null]
      next null =>
        obtain ⟨u, first, rest⟩ := bind_eq_ok.mp run
        rw [List.takeWhile_cons_of_pos (by simp [null]), List.forall_mem_cons]
        exact ⟨(setupEntry_eq_ok first).1.bound, ih rest⟩

theorem MemoryMap.toList_eq (map : MemoryMap) : map.toList = map[0] :: map.toList.tail := by
  have nonempty : map.toList ≠ [] := List.ne_nil_of_length_pos (by simp)
  rw [← List.cons_head_tail nonempty]
  simp [List.head_eq_getElem]

theorem MemoryMap.entries_of_null (null : map[0].isNull = true) : map.entries = [] := by
  rw [entries, toList_eq, List.takeWhile_cons_of_neg (by simp [null])]

/-- An empty map leaves everything as it was. -/
theorem setupEntries_of_null (null : map[0].isNull = true) (s : HeapSetup) :
    setupEntries ps heapStart vtom map.toList s = .ok s := by
  rw [MemoryMap.toList_eq, setupEntries, if_pos null]

theorem setupEntries_progress (top : vtom ≠ 0 → heapStart < vtom ∧ vtom % ps.bytes = 0)
    (null : map[0].isNull = false)
    (run : setupEntries ps heapStart vtom map.toList .initial = .ok s) :
    Progress ps heapStart vtom map.entries s := by
  have aligned : vtom % ps.bytes = 0 := by
    by_cases used : vtom = 0
    · rw [used, Nat.zero_mod]
    · exact (top used).2
  rw [MemoryMap.toList_eq, setupEntries, if_neg (by simp [null])] at run
  obtain ⟨u, first, run⟩ := bind_eq_ok.mp run
  have last := (Progress.start_of_step (fun used => (top used).1) first).run aligned run
  rwa [MemoryMap.entries, MemoryMap.toList_eq, List.takeWhile_cons_of_pos (by simp [null])]

end Setup

/-- The heap and the memory for the host are what the map and the virtual top of memory allow. -/
structure HeapSafe (ps : PageSize) (heapStart vtom : Nat) (map : MemoryMap) (m : SevMemory) :
    Prop where
  start : m.heap.first.data = heapStart
  ascending : m.heap.ranges.Pairwise fun r q => r.data < q.data ∧ r.stop ≤ q.data
  alignedEnd : ∀ r ∈ m.heap.ranges, r.stop % ps.bytes = 0
  alignedStart : ∀ r ∈ m.heap.additional, r.data % ps.bytes = 0
  inside : ∀ r ∈ m.heap.ranges, ∃ entry ∈ map.entries,
    entry.address ≤ r.data ∧ r.stop ≤ entry.endAddress
  bound : ∀ r ∈ m.heap.ranges, r.stop ≤ 2 ^ 48
  below : vtom ≠ 0 → ∀ r ∈ m.heap.ranges, r.stop ≤ vtom
  above : vtom ≠ 0 → m.aboveVtomMemoryRange.data = vtom ∧ ∃ entry ∈ map.entries,
    entry.address ≤ m.aboveVtomMemoryRange.data ∧
      m.aboveVtomMemoryRange.stop ≤ entry.endAddress

/-- For every map that the setup does not abort on, the heap is safe exactly if the map is not
empty: an empty one passes without a first range. -/
theorem setup_heap_sev_safe_iff (h : setupHeapSev ps heapStart vtom map = .ok m) :
    HeapSafe ps heapStart vtom map m ↔ map[0].isNull = false := by
  obtain ⟨top, s, validated, run, above, -, rfl⟩ := setupHeapSev_eq_ok h
  constructor
  · intro safe
    by_contra null
    obtain ⟨entry, mem, -⟩ := safe.inside s.heap.first (List.mem_cons_self ..)
    rw [MemoryMap.entries_of_null (by simpa using null)] at mem
    cases mem
  · intro null
    have progress := setupEntries_progress top null run
    refine ⟨progress.start, progress.ascending_of_placed, ?_, progress.alignedStart, ?_, ?_, ?_, ?_⟩
    · exact fun r hr => (progress.placed r hr).alignedEnd
    · exact fun r hr => (progress.placed r hr).inside
    · exact fun r hr => Nat.le_trans (progress.placed r hr).bound progress.bound
    · exact fun used r hr => (progress.placed r hr).below used
    · intro used
      have carved := progress.carved_of_nonempty (above used)
      exact ⟨carved.start, carved.inside⟩

/-- The map that consists of the null entry. -/
def emptyMap : MemoryMap := Vector.replicate 32 ⟨0, 0, 0⟩

/-- Two entries; the second one reaches behind the virtual top of memory at `0x10c000`. -/
def sampleMap : MemoryMap := (emptyMap.set 0 ⟨0x100, 8, 0⟩).set 1 ⟨0x10a, 4, 1⟩

theorem setup_heap_sev_safe_two_entries :
    ∃ m, setupHeapSev .kib4 0x100800 0x10c000 sampleMap = .ok m ∧
      HeapSafe .kib4 0x100800 0x10c000 sampleMap m ∧
      m.heap = ⟨⟨0x100800, 0x7800⟩, [⟨0x10a000, 0x2000⟩]⟩ ∧
      m.aboveVtomMemoryRange = ⟨0x10c000, 0x2000⟩ := by
  have run : setupHeapSev .kib4 0x100800 0x10c000 sampleMap = .ok
      ⟨⟨⟨0x100800, 0x7800⟩, [⟨0x10a000, 0x2000⟩]⟩, ⟨0x10c000, 0x2000⟩,
        List.range' 0x101000 11 0x1000⟩ := by decide +kernel
  exact ⟨_, run, (setup_heap_sev_safe_iff run).mpr (by decide +kernel), rfl, rfl⟩

/-- An empty map is accepted and the heap does not start at its start. -/
theorem setup_heap_sev_accepts_empty_map :
    ∃ m, setupHeapSev .mib2 0x400000 0 emptyMap = .ok m ∧ m.heap.first.data ≠ 0x400000 ∧
      ¬ HeapSafe .mib2 0x400000 0 emptyMap m := by
  have run : setupHeapSev .mib2 0x400000 0 emptyMap = .ok ⟨.initial, ⟨0, 0⟩, []⟩ := by
    decide +kernel
  exact ⟨_, run, by decide, fun safe => absurd safe.start (by decide)⟩

end Monza.Sev
