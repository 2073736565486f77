import Monza.Machine

/-!
# Address ranges and heap ranges

`AddressRange` keeps its end at or above its start when it is built from two
bounds; built from a span its end may wrap. The heap consists of a first range
behind the image and of additional ranges.
-/

namespace Monza

/-- `std::span<uint8_t>`. -/
structure Span where
  data : Nat
  size : Nat
  deriving DecidableEq, Repr

/-- The address behind a span that does not wrap. -/
def Span.stop (span : Span) : Nat := span.data + span.size

/-- The count that stands for the rest of a span. -/
def dynamicExtent : Nat := 2 ^ 64 - 1

/-- `std::span::first`. -/
def Span.first (span : Span) (count : Nat) : Span := ⟨span.data, count⟩

/-- The standard leaves other calls of `first` undefined. -/
def Span.FirstDefined (span : Span) (count : Nat) : Prop := count ≤ span.size

/-- `std::span::subspan`. -/
def Span.subspan (span : Span) (offset count : Nat) : Span :=
  ⟨u64 (span.data + offset), if count = dynamicExtent then sub64 span.size offset else count⟩

/-- The standard leaves other calls of `subspan` undefined. -/
def Span.SubspanDefined (span : Span) (offset count : Nat) : Prop :=
  offset ≤ span.size ∧ (count = dynamicExtent ∨ count ≤ span.size - offset)

/-- No address is in both spans. -/
def Span.Disjoint (a b : Span) : Prop :=
  ∀ x, a.data ≤ x → x < a.stop → b.data ≤ x → ¬ x < b.stop

theorem Span.disjoint_of_le {a b : Span} (h : a.stop ≤ b.data) : a.Disjoint b :=
  fun _ _ hi lo _ => Nat.not_lt_of_le (Nat.le_trans h lo) hi

theorem Span.disjoint_of_ge {a b : Span} (h : b.stop ≤ a.data) : a.Disjoint b :=
  fun _ lo _ _ hi => Nat.not_lt_of_le (Nat.le_trans h lo) hi

theorem Span.disjoint_iff {a b : Span} : a.Disjoint b ↔ min a.stop b.stop ≤ max a.data b.data := by
  constructor
  · intro disjoint
    by_contra common
    have outside := disjoint (max a.data b.data) (Nat.le_max_left _ _) (by omega)
      (Nat.le_max_right _ _)
    omega
  · intro apart x lo hi lo' hi'
    omega

instance (a b : Span) : Decidable (a.Disjoint b) := decidable_of_iff _ Span.disjoint_iff.symm

/-- Spans that are apart and not empty are ordered. -/
theorem Span.Disjoint.stop_le {a b : Span} (h : a.Disjoint b) (nonempty : 0 < b.size)
    (le : a.data ≤ b.data) : a.stop ≤ b.data := by
  have outside := h b.data le
  rw [Span.stop] at outside ⊢
  simp only [Span.stop] at outside
  omega

theorem Span.stop_sub64 {a b : Nat} (h : a < b) (hb : b < 2 ^ 64) :
    Span.stop ⟨a, sub64 b a⟩ = b ∧ 0 < sub64 b a := by
  rw [Span.stop, sub64_of_le hb (Nat.le_of_lt h)]
  exact ⟨Nat.add_sub_of_le (Nat.le_of_lt h), Nat.sub_pos_of_lt h⟩

/-- The field `stop` is the member `end` of the source. -/
structure AddressRange where
  start : Nat
  stop : Nat
  deriving DecidableEq, Repr

namespace AddressRange

def ofSpan (span : Span) : AddressRange := ⟨span.data, u64 (span.data + span.size)⟩

def ofBounds (s e : Nat) : AddressRange := ⟨s, if e > s then e else s⟩

def overlaps (r : AddressRange) (address : Nat) : Bool :=
  decide (r.start ≤ address) && decide (address < r.stop)

def empty (r : AddressRange) : Bool := r.start == r.stop

def size (r : AddressRange) : Nat := sub64 r.stop r.start

def alignUpStart (r : AddressRange) (alignment : Nat) : AddressRange :=
  let alignedStart := alignUp r.start alignment
  if alignedStart ≥ r.stop then ofBounds alignedStart alignedStart else ofBounds alignedStart r.stop

def alignUpEnd (r : AddressRange) (alignment : Nat) : AddressRange :=
  ofBounds r.start (alignUp r.stop alignment)

def alignDownEnd (r : AddressRange) (alignment : Nat) : AddressRange :=
  let alignedEnd := alignDown r.stop alignment
  if alignedEnd ≤ r.start then ofBounds alignedEnd alignedEnd else ofBounds r.start alignedEnd

def alignRestrict (r : AddressRange) (alignment : Nat) : AddressRange :=
  let alignedStart := alignUp r.start alignment
  let alignedEnd := alignDown r.stop alignment
  if alignedEnd ≤ alignedStart then ofBounds alignedStart alignedStart
  else ofBounds alignedStart alignedEnd

def alignBroaden (r : AddressRange) (alignment : Nat) : AddressRange :=
  ofBounds (alignDown r.start alignment) (alignUp r.stop alignment)

@[simp] theorem ofBounds_start (s e : Nat) : (ofBounds s e).start = s := rfl

@[simp] theorem ofBounds_stop (s e : Nat) : (ofBounds s e).stop = max s e := by
  simp only [ofBounds]
  split <;> omega

theorem alignUpStart_eq (r : AddressRange) (alignment : Nat) :
    r.alignUpStart alignment =
      ⟨alignUp r.start alignment, max (alignUp r.start alignment) r.stop⟩ := by
  rw [alignUpStart]
  by_cases h : alignUp r.start alignment ≥ r.stop
  · rw [if_pos h, ofBounds, if_neg (Nat.lt_irrefl _), Nat.max_eq_left h]
  · rw [if_neg h, ofBounds, if_pos (Nat.lt_of_not_le h), Nat.max_eq_right (Nat.le_of_not_le h)]

section Align

variable {s e alignment : Nat} {r : AddressRange}

theorem alignRestrict_of_le (h : alignDown e alignment ≤ alignUp s alignment) :
    (alignRestrict ⟨s, e⟩ alignment).empty = true := by
  rw [alignRestrict, if_pos h]
  simp [empty]

theorem alignRestrict_of_lt (h : alignUp s alignment < alignDown e alignment) :
    alignRestrict ⟨s, e⟩ alignment = ⟨alignUp s alignment, alignDown e alignment⟩ := by
  rw [alignRestrict, if_neg (Nat.not_le_of_lt h), ofBounds, if_pos h]

theorem alignDownEnd_of_le (h : alignDown e alignment ≤ s) :
    (alignDownEnd ⟨s, e⟩ alignment).empty = true := by
  rw [alignDownEnd, if_pos h]
  simp [empty]

theorem alignDownEnd_of_lt (h : s < alignDown e alignment) :
    alignDownEnd ⟨s, e⟩ alignment = ⟨s, alignDown e alignment⟩ := by
  rw [alignDownEnd, if_neg (Nat.not_le_of_lt h), ofBounds, if_pos h]

theorem alignDownEnd_of_nonempty (h : ¬ (r.alignDownEnd alignment).empty = true) :
    r.start < alignDown r.stop alignment ∧
      r.alignDownEnd alignment = ⟨r.start, alignDown r.stop alignment⟩ := by
  have less := Nat.lt_of_not_le fun le => h (alignDownEnd_of_le le)
  exact ⟨less, alignDownEnd_of_lt less⟩

theorem alignRestrict_of_nonempty (h : ¬ (r.alignRestrict alignment).empty = true) :
    alignUp r.start alignment < alignDown r.stop alignment ∧
      r.alignRestrict alignment = ⟨alignUp r.start alignment, alignDown r.stop alignment⟩ := by
  have less := Nat.lt_of_not_le fun le => h (alignRestrict_of_le le)
  exact ⟨less, alignRestrict_of_lt less⟩

end Align

theorem overlaps_iff {r : AddressRange} {address : Nat} :
    r.overlaps address = true ↔ r.start ≤ address ∧ address < r.stop := by
  simp [overlaps]

end AddressRange

/-- The static members of `HeapRanges`. -/
structure HeapRanges where
  first : Span
  additional : List Span
  deriving DecidableEq, Repr

namespace HeapRanges

open Outcome

def isHeapAddress (h : HeapRanges) (address : Nat) : Bool :=
  (AddressRange.ofSpan h.first).overlaps address ||
    h.additional.any (fun range => (AddressRange.ofSpan range).overlaps address)

/-- Before `setup_heap`. -/
def initial : HeapRanges := ⟨⟨0, 0⟩, []⟩

def maxRangeCount : Nat := 32

/-- All ranges, in the order they were set. -/
def ranges (h : HeapRanges) : List Span := h.first :: h.additional

section Setup

variable (pageSize : Nat) (ps : PageSize)

/-- The argument that `align_end` gives to `first`. -/
def alignEndCount (range : Span) : Result Nat :=
  let aligned := (AddressRange.ofSpan range).alignDownEnd pageSize
  if aligned.empty then .error .kabort else .ok (sub64 aligned.stop aligned.start)

def alignEnd (range : Span) : Result Span := do
  let count ← alignEndCount pageSize range
  .ok (range.first count)

/-- The arguments that `align` gives to `subspan`. -/
def alignOffsetCount (range : Span) : Result (Nat × Nat) :=
  let whole := AddressRange.ofSpan range
  let aligned := whole.alignRestrict pageSize
  if aligned.empty then .error .kabort
  else .ok (sub64 aligned.start whole.start, sub64 aligned.stop aligned.start)

def align (range : Span) : Result Span := do
  let (offset, count) ← alignOffsetCount pageSize range
  .ok (range.subspan offset count)

def setFirst (h : HeapRanges) (range : Span) : Result HeapRanges := do
  let first ← alignEnd ps.bytes range
  .ok { h with first := first }

def add (h : HeapRanges) (range : Span) : Result HeapRanges :=
  if h.additional.length = maxRangeCount then .error .kabort
  else do
    let aligned ← align ps.bytes range
    .ok { h with additional := h.additional ++ [aligned] }

variable {ps} {range r : Span}

/-- A first range keeps its start and loses what is behind its last page boundary. -/
theorem alignEnd_eq_ok (bound : range.stop < 2 ^ 64) (h : alignEnd ps.bytes range = .ok r) :
    r.data = range.data ∧ r.stop = alignDown range.stop ps.bytes ∧ 0 < r.size := by
  have stop : (AddressRange.ofSpan range).stop = range.stop := u64_of_lt bound
  have below := alignDown_le range.stop ps.bytes
  obtain ⟨count, h, same⟩ := bind_eq_ok.mp h
  obtain ⟨nonempty, h⟩ := guard_eq_ok.mp h
  obtain ⟨less, aligned⟩ := AddressRange.alignDownEnd_of_nonempty nonempty
  rw [stop] at less aligned
  rw [aligned] at h
  cases h
  rw [Span.first] at same
  cases same
  exact ⟨rfl, Span.stop_sub64 less (Nat.lt_of_le_of_lt below bound)⟩

/-- Page boundaries are not so far apart that their distance means the rest of a span. -/
theorem sub64_boundaries_ne_dynamicExtent (a b : Nat) :
    sub64 (alignDown b ps.bytes) (alignUp a ps.bytes) ≠ dynamicExtent := by
  have even : 2 ∣ ps.bytes := by cases ps <;> decide
  have low : alignUp a ps.bytes % 2 = 0 :=
    Nat.mod_eq_zero_of_dvd (even.trans (Nat.dvd_of_mod_eq_zero (alignUp_mod _ _)))
  have high : alignDown b ps.bytes % 2 = 0 :=
    Nat.mod_eq_zero_of_dvd (even.trans (Nat.dvd_of_mod_eq_zero (alignDown_mod _ _)))
  unfold sub64 u64 dynamicExtent
  omega

/-- A further range is cut to whole pages. -/
theorem align_eq_ok (word : range.data < 2 ^ 64) (h : align ps.bytes range = .ok r) :
    r.data = alignUp range.data ps.bytes ∧ r.stop = alignDown (u64 range.stop) ps.bytes ∧
      0 < r.size := by
  have below := alignDown_le (u64 range.stop) ps.bytes
  have small := u64_lt range.stop
  obtain ⟨⟨offset, count⟩, h, same⟩ := bind_eq_ok.mp h
  obtain ⟨nonempty, h⟩ := guard_eq_ok.mp h
  obtain ⟨less, aligned⟩ := AddressRange.alignRestrict_of_nonempty nonempty
  rw [aligned] at h
  cases h
  simp only [Span.subspan, if_neg (sub64_boundaries_ne_dynamicExtent _ _)] at same
  cases same
  change alignUp range.data ps.bytes < alignDown (u64 range.stop) ps.bytes at less
  have start : u64 (range.data + sub64 (alignUp range.data ps.bytes) range.data) =
      alignUp range.data ps.bytes := by
    unfold sub64 u64 at *
    omega
  obtain ⟨stop, size⟩ := Span.stop_sub64 less (Nat.lt_of_le_of_lt below small)
  refine ⟨start, ?_, size⟩
  rw [← stop]
  exact congrArg (· + sub64 _ _) start

end Setup

/-- The range that was set last. -/
def last (h : HeapRanges) : Span := h.additional.getLastD h.first

theorem exists_ranges_eq (h : HeapRanges) : ∃ front, h.ranges = front ++ [h.last] := by
  rcases List.eq_nil_or_concat h.additional with empty | ⟨front, r, more⟩
  · exact ⟨[], by rw [ranges, last, empty]; rfl⟩
  · exact ⟨h.first :: front, by
      rw [ranges, last, more, List.concat_eq_append, List.getLastD_concat]
      rfl⟩

theorem first_mem (h : HeapRanges) : h.first ∈ h.ranges := List.mem_cons_self

theorem last_mem (h : HeapRanges) : h.last ∈ h.ranges := by
  obtain ⟨front, ranges⟩ := h.exists_ranges_eq
  simp [ranges]

def largestValidAddress (h : HeapRanges) : Nat := sub64 (AddressRange.ofSpan h.last).stop 1

/-- The identity mapping of a four-level table reaches all of the heap. -/
def Below (h : HeapRanges) (bound : Nat) : Prop :=
  ∀ address, h.isHeapAddress address = true → address < bound

theorem isHeapAddress_iff {h : HeapRanges} {x : Nat} (word : ∀ r ∈ h.ranges, r.stop < 2 ^ 64) :
    h.isHeapAddress x = true ↔ ∃ r ∈ h.ranges, r.data ≤ x ∧ x < r.stop := by
  have overlaps : ∀ r ∈ h.ranges,
      ((AddressRange.ofSpan r).overlaps x = true ↔ r.data ≤ x ∧ x < r.stop) := by
    intro r hr
    have stop : (AddressRange.ofSpan r).stop = r.stop := u64_of_lt (word r hr)
    rw [AddressRange.overlaps_iff, stop]
    rfl
  have any : h.isHeapAddress x =
      h.ranges.any (fun range => (AddressRange.ofSpan range).overlaps x) := rfl
  rw [any, List.any_eq_true]
  exact exists_congr fun r => and_congr_right (overlaps r)

end HeapRanges

/-- The address behind the last heap range, as it is recomputed from the largest valid one. -/
theorem u64_largestValidAddress (h : HeapRanges) :
    u64 (h.largestValidAddress + 1) = u64 h.last.stop := by
  have := u64_lt h.last.stop
  change u64 (sub64 (u64 h.last.stop) 1 + 1) = _
  simp only [sub64, u64] at *
  omega

end Monza
