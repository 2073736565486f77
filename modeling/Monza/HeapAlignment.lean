import Monza.Heap

/-!
# The whole pages of a heap range

`HeapRanges::align` and `HeapRanges::align_end` turn a span into an address range,
align the range and go back to an offset and a length inside the span. The results hold
for an arbitrary page size, and the span functions are only called where they are defined.

An aligned range is described by the pages it consists of: the pages that lie wholly
inside the span, or everything up to the last page boundary. Nothing is assumed about
the length of the span; it may be empty or lie inside one page.
-/

namespace Monza

theorem Span.subspan_of_le {span : Span} {offset count : Nat} (word : span.size < 2 ^ 64)
    (ho : offset ≤ span.size) (hc : count ≤ span.size - offset) :
    span.subspan offset count = ⟨u64 (span.data + offset), count⟩ := by
  rw [subspan]
  by_cases rest : count = dynamicExtent
  · have all : span.size - offset = count := by
      rw [dynamicExtent] at rest
      omega
    rw [if_pos rest, sub64_of_le word ho, all]
  · rw [if_neg rest]

section Alignment

variable {a b n : Nat}

/-- The greatest aligned value that is not above. -/
theorem le_alignDown_of_mod (hb : b % n = 0) (h : b ≤ a) : b ≤ alignDown a n := by
  calc b = b / n * n := (Nat.div_mul_cancel (Nat.dvd_of_mod_eq_zero hb)).symm
    _ ≤ alignDown a n := Nat.mul_le_mul_right n (Nat.div_le_div_right h)

/-- The unit around an address starts at the aligned value below it. -/
theorem lt_alignDown_add (hn : 0 < n) : a < alignDown a n + n :=
  Nat.lt_div_mul_add hn

end Alignment

namespace AddressRange

theorem empty_of_lt {s e : Nat} (h : s < e) : ¬ empty ⟨s, e⟩ = true := by
  simpa [empty] using Nat.ne_of_lt h

end AddressRange

namespace HeapRanges

open Outcome

section Definitions

variable (pageSize : Nat)

/-- Where `align_end` calls `first`, the call is defined. -/
def AlignEndDefined (range : Span) : Prop :=
  ∀ count, alignEndCount pageSize range = .ok count → range.FirstDefined count

/-- Where `align` calls `subspan`, the call is defined. -/
def AlignDefined (range : Span) : Prop :=
  ∀ offset count, alignOffsetCount pageSize range = .ok (offset, count) →
    range.SubspanDefined offset count

/-- The page at `page` is aligned and lies wholly inside the span. -/
def WholePage (range : Span) (page : Nat) : Prop :=
  page % pageSize = 0 ∧ range.data ≤ page ∧ page + pageSize ≤ range.stop

/-- A page boundary behind the first address of the span, up to its end. -/
def Boundary (range : Span) (address : Nat) : Prop :=
  address % pageSize = 0 ∧ range.data < address ∧ address ≤ range.stop

end Definitions

variable {pageSize : Nat} {range : Span}

section Pages

variable (positive : 0 < pageSize) (bound : range.stop + pageSize ≤ 2 ^ 64)
include positive bound

theorem le_alignUp_data : range.data ≤ alignUp range.data pageSize :=
  le_alignUp positive (Nat.le_trans (Nat.add_le_add_right (Nat.le_add_right _ _) _) bound)

theorem wholePage_iff {page : Nat} : WholePage pageSize range page ↔
    page % pageSize = 0 ∧ alignUp range.data pageSize ≤ page ∧
      page + pageSize ≤ alignDown range.stop pageSize := by
  have low := le_alignUp_data positive bound
  have high := alignDown_le range.stop pageSize
  constructor
  · rintro ⟨aligned, start, stop⟩
    have next : (page + pageSize) % pageSize = 0 := by rw [Nat.add_mod_right, aligned]
    exact ⟨aligned, alignUp_le_of_mod positive aligned start, le_alignDown_of_mod next stop⟩
  · rintro ⟨aligned, start, stop⟩
    exact ⟨aligned, Nat.le_trans low start, Nat.le_trans stop high⟩

theorem exists_wholePage_iff : (∃ page, WholePage pageSize range page) ↔
    alignUp range.data pageSize < alignDown range.stop pageSize := by
  constructor
  · rintro ⟨page, whole⟩
    obtain ⟨-, start, stop⟩ := (wholePage_iff positive bound).mp whole
    omega
  · intro less
    refine ⟨alignUp range.data pageSize, (wholePage_iff positive bound).mpr ?_⟩
    exact ⟨alignUp_mod _ _, Nat.le_refl _, add_le_of_mod (alignUp_mod _ _) (alignDown_mod _ _) less⟩

/-- Between the two aligned ends lies exactly what the whole pages cover. -/
theorem between_iff_mem_wholePage {x : Nat} :
    alignUp range.data pageSize ≤ x ∧ x < alignDown range.stop pageSize ↔
      ∃ page, WholePage pageSize range page ∧ page ≤ x ∧ x < page + pageSize := by
  constructor
  · rintro ⟨start, stop⟩
    -- The page around `x` starts behind the first boundary and before the last one.
    have below := alignDown_le x pageSize
    have first := le_alignDown_of_mod (alignUp_mod range.data pageSize) start
    have last : alignDown x pageSize + pageSize ≤ alignDown range.stop pageSize :=
      add_le_of_mod (alignDown_mod _ _) (alignDown_mod _ _) (Nat.lt_of_le_of_lt below stop)
    refine ⟨alignDown x pageSize, ?_, below, lt_alignDown_add positive⟩
    exact (wholePage_iff positive bound).mpr ⟨alignDown_mod _ _, first, last⟩
  · rintro ⟨page, whole, start, stop⟩
    obtain ⟨-, first, last⟩ := (wholePage_iff positive bound).mp whole
    omega

theorem ofSpan_eq : AddressRange.ofSpan range = ⟨range.data, range.stop⟩ := by
  rw [AddressRange.ofSpan, u64_of_lt (show range.data + range.size < 2 ^ 64 by
    rw [Span.stop] at bound
    omega)]
  rfl

theorem alignOffsetCount_of_le (h : alignDown range.stop pageSize ≤ alignUp range.data pageSize) :
    alignOffsetCount pageSize range = .error .kabort := by
  rw [alignOffsetCount, ofSpan_eq positive bound]
  exact if_pos (AddressRange.alignRestrict_of_le h)

theorem alignOffsetCount_of_lt (h : alignUp range.data pageSize < alignDown range.stop pageSize) :
    alignOffsetCount pageSize range = .ok (alignUp range.data pageSize - range.data,
      alignDown range.stop pageSize - alignUp range.data pageSize) := by
  have low := le_alignUp_data positive bound
  have high := alignDown_le range.stop pageSize
  simp only [alignOffsetCount, ofSpan_eq positive bound, AddressRange.alignRestrict_of_lt h,
    if_neg (AddressRange.empty_of_lt h)]
  rw [sub64_of_le (by omega) low, sub64_of_le (by omega) (Nat.le_of_lt h)]

theorem alignDefined : AlignDefined pageSize range := by
  intro offset count call
  have low := le_alignUp_data positive bound
  have high := alignDown_le range.stop pageSize
  have stop : range.data + range.size = range.stop := rfl
  rcases Nat.lt_or_ge (alignUp range.data pageSize) (alignDown range.stop pageSize) with less | ge
  · rw [alignOffsetCount_of_lt positive bound less] at call
    cases call
    exact ⟨by omega, .inr (by omega)⟩
  · rw [alignOffsetCount_of_le positive bound ge] at call
    cases call

/-- The offset and the length lead back to the aligned ends, inside the span. -/
theorem align_of_lt (h : alignUp range.data pageSize < alignDown range.stop pageSize) :
    align pageSize range = .ok ⟨alignUp range.data pageSize,
      alignDown range.stop pageSize - alignUp range.data pageSize⟩ := by
  have low := le_alignUp_data positive bound
  have high := alignDown_le range.stop pageSize
  have stop : range.data + range.size = range.stop := rfl
  rw [align, alignOffsetCount_of_lt positive bound h, ok_bind]
  change Except.ok (range.subspan _ _) = _
  rw [Span.subspan_of_le (by omega) (by omega) (by omega), Nat.add_sub_of_le low,
    u64_of_lt (by omega)]

theorem alignEndCount_of_le (h : alignDown range.stop pageSize ≤ range.data) :
    alignEndCount pageSize range = .error .kabort := by
  rw [alignEndCount, ofSpan_eq positive bound]
  exact if_pos (AddressRange.alignDownEnd_of_le h)

theorem alignEndCount_of_lt (h : range.data < alignDown range.stop pageSize) :
    alignEndCount pageSize range = .ok (alignDown range.stop pageSize - range.data) := by
  have high := alignDown_le range.stop pageSize
  simp only [alignEndCount, ofSpan_eq positive bound, AddressRange.alignDownEnd_of_lt h,
    if_neg (AddressRange.empty_of_lt h)]
  rw [sub64_of_le (by omega) (Nat.le_of_lt h)]

theorem alignEndDefined : AlignEndDefined pageSize range := by
  intro count call
  have high := alignDown_le range.stop pageSize
  have stop : range.data + range.size = range.stop := rfl
  rcases Nat.lt_or_ge range.data (alignDown range.stop pageSize) with less | ge
  · rw [alignEndCount_of_lt positive bound less] at call
    cases call
    rw [Span.FirstDefined]
    omega
  · rw [alignEndCount_of_le positive bound ge] at call
    cases call

theorem alignEnd_of_lt (h : range.data < alignDown range.stop pageSize) :
    alignEnd pageSize range = .ok ⟨range.data, alignDown range.stop pageSize - range.data⟩ := by
  rw [alignEnd, alignEndCount_of_lt positive bound h]
  rfl

end Pages

/-- A page boundary lies in the span exactly when the last one does. -/
theorem exists_boundary_iff : (∃ address, Boundary pageSize range address) ↔
    range.data < alignDown range.stop pageSize := by
  constructor
  · rintro ⟨address, aligned, start, stop⟩
    exact Nat.lt_of_lt_of_le start (le_alignDown_of_mod aligned stop)
  · intro less
    exact ⟨_, alignDown_mod _ _, less, alignDown_le _ _⟩

end HeapRanges

namespace AddressRange

/-- The ends of `inner` lie between the ends of `outer`. -/
def Contains (outer inner : AddressRange) : Prop :=
  outer.start ≤ inner.start ∧ inner.stop ≤ outer.stop

/-- Both ends are multiples of the alignment. -/
def Aligned (r : AddressRange) (alignment : Nat) : Prop :=
  r.start % alignment = 0 ∧ r.stop % alignment = 0

/-- For a range that is not empty containment is about its addresses. -/
theorem contains_iff_overlaps {outer inner : AddressRange} (h : inner.start < inner.stop) :
    outer.Contains inner ↔
      ∀ x, inner.overlaps x = true → outer.overlaps x = true := by
  simp only [overlaps_iff, Contains]
  constructor
  · intro contains x inside
    omega
  · intro every
    have first := every inner.start ⟨Nat.le_refl _, h⟩
    have last := every (inner.stop - 1) ⟨by omega, by omega⟩
    omega

variable {r : AddressRange} {alignment : Nat}

theorem ofBounds_of_le {s e : Nat} (h : s ≤ e) : ofBounds s e = ⟨s, e⟩ := by
  have stop := ofBounds_stop s e
  rw [Nat.max_eq_right h] at stop
  exact congrArg (AddressRange.mk s) stop

theorem alignBroaden_eq (positive : 0 < alignment) (ordered : r.start ≤ r.stop)
    (bound : r.stop + alignment ≤ 2 ^ 64) :
    r.alignBroaden alignment = ⟨alignDown r.start alignment, alignUp r.stop alignment⟩ := by
  have le : alignDown r.start alignment ≤ alignUp r.stop alignment :=
    Nat.le_trans (alignDown_le _ _) (Nat.le_trans ordered (le_alignUp positive bound))
  exact ofBounds_of_le le

/-- The least aligned range around a range, in the order of both ends. -/
theorem alignBroaden_least (positive : 0 < alignment) (ordered : r.start ≤ r.stop)
    (bound : r.stop + alignment ≤ 2 ^ 64) :
    (r.alignBroaden alignment).Aligned alignment ∧ (r.alignBroaden alignment).Contains r ∧
      ∀ outer : AddressRange, outer.Aligned alignment → outer.Contains r →
        outer.Contains (r.alignBroaden alignment) := by
  rw [alignBroaden_eq positive ordered bound]
  refine ⟨⟨alignDown_mod _ _, alignUp_mod _ _⟩, ⟨alignDown_le _ _, le_alignUp positive bound⟩, ?_⟩
  rintro outer ⟨start, stop⟩ ⟨first, last⟩
  exact ⟨le_alignDown_of_mod start first, alignUp_le_of_mod positive stop last⟩

/-- The same in terms of addresses, of which an empty range has none. -/
theorem alignBroaden_overlaps (positive : 0 < alignment) (nonempty : r.start < r.stop)
    (bound : r.stop + alignment ≤ 2 ^ 64) {outer : AddressRange} (aligned : outer.Aligned alignment)
    (around : ∀ x, r.overlaps x = true → outer.overlaps x = true) {x : Nat}
    (inside : (r.alignBroaden alignment).overlaps x = true) : outer.overlaps x = true := by
  obtain ⟨-, contains, least⟩ := alignBroaden_least positive (Nat.le_of_lt nonempty) bound
  have broad : (r.alignBroaden alignment).start < (r.alignBroaden alignment).stop :=
    Nat.lt_of_le_of_lt contains.1 (Nat.lt_of_lt_of_le nonempty contains.2)
  have outside := least outer aligned ((contains_iff_overlaps nonempty).mpr around)
  exact (contains_iff_overlaps broad).mp outside x inside

end AddressRange

namespace HeapRanges

variable {pageSize : Nat} {range : Span} (positive : 0 < pageSize)
  (bound : range.stop + pageSize ≤ 2 ^ 64)
include positive bound

theorem align_eq_error_iff :
    align pageSize range = .error .kabort ↔ ∀ page, ¬ WholePage pageSize range page := by
  rw [← not_exists, exists_wholePage_iff positive bound]
  constructor
  · intro aborts less
    rw [align_of_lt positive bound less] at aborts
    cases aborts
  · intro less
    rw [align, alignOffsetCount_of_le positive bound (Nat.le_of_not_lt less)]
    rfl

theorem align_eq_ok_of_wholePage (whole : ∃ page, WholePage pageSize range page) :
    ∃ r, align pageSize range = .ok r ∧ range.data ≤ r.data ∧ r.stop ≤ range.stop ∧
      ∀ x, (r.data ≤ x ∧ x < r.stop) ↔
        ∃ page, WholePage pageSize range page ∧ page ≤ x ∧ x < page + pageSize := by
  have less := (exists_wholePage_iff positive bound).mp whole
  have stop : Span.stop ⟨alignUp range.data pageSize,
      alignDown range.stop pageSize - alignUp range.data pageSize⟩ =
      alignDown range.stop pageSize := Nat.add_sub_of_le (Nat.le_of_lt less)
  refine ⟨_, align_of_lt positive bound less, le_alignUp_data positive bound, ?_, ?_⟩
  · rw [stop]
    exact alignDown_le _ _
  · intro x
    rw [stop]
    exact between_iff_mem_wholePage positive bound

theorem alignEnd_eq_error_iff :
    alignEnd pageSize range = .error .kabort ↔ ∀ address, ¬ Boundary pageSize range address := by
  rw [← not_exists, exists_boundary_iff]
  constructor
  · intro aborts less
    rw [alignEnd_of_lt positive bound less] at aborts
    cases aborts
  · intro less
    rw [alignEnd, alignEndCount_of_le positive bound (Nat.le_of_not_lt less)]
    rfl

theorem alignEnd_eq_ok_of_boundary (boundary : ∃ address, Boundary pageSize range address) :
    ∃ r, alignEnd pageSize range = .ok r ∧ r.data = range.data ∧
      Boundary pageSize range r.stop ∧
      ∀ address, Boundary pageSize range address → address ≤ r.stop := by
  have less := exists_boundary_iff.mp boundary
  have stop : Span.stop ⟨range.data, alignDown range.stop pageSize - range.data⟩ =
      alignDown range.stop pageSize := Nat.add_sub_of_le (Nat.le_of_lt less)
  refine ⟨_, alignEnd_of_lt positive bound less, rfl, ?_, ?_⟩
  · rw [stop]
    exact ⟨alignDown_mod _ _, less, alignDown_le _ _⟩
  · rintro address ⟨aligned, -, le⟩
    rw [stop]
    exact le_alignDown_of_mod aligned le

end HeapRanges

/-- A further heap range is exactly its whole pages, the first one ends at its last page
boundary, and broadening a range adds nothing that the alignment does not need. The span
functions are only called inside the given span. -/
theorem heap_alignment_keeps_whole_pages {k : Nat} {range : Span}
    (bound : range.stop + 2 ^ k ≤ 2 ^ 64) :
    HeapRanges.AlignDefined (2 ^ k) range ∧ HeapRanges.AlignEndDefined (2 ^ k) range ∧
    (HeapRanges.align (2 ^ k) range = .error .kabort ↔
      ∀ page, ¬ HeapRanges.WholePage (2 ^ k) range page) ∧
    ((∃ page, HeapRanges.WholePage (2 ^ k) range page) →
      ∃ r, HeapRanges.align (2 ^ k) range = .ok r ∧
        range.data ≤ r.data ∧ r.stop ≤ range.stop ∧
        ∀ x, (r.data ≤ x ∧ x < r.stop) ↔
          ∃ page, HeapRanges.WholePage (2 ^ k) range page ∧ page ≤ x ∧ x < page + 2 ^ k) ∧
    (HeapRanges.alignEnd (2 ^ k) range = .error .kabort ↔
      ∀ address, ¬ HeapRanges.Boundary (2 ^ k) range address) ∧
    ((∃ address, HeapRanges.Boundary (2 ^ k) range address) →
      ∃ r, HeapRanges.alignEnd (2 ^ k) range = .ok r ∧ r.data = range.data ∧
        HeapRanges.Boundary (2 ^ k) range r.stop ∧
        ∀ address, HeapRanges.Boundary (2 ^ k) range address → address ≤ r.stop) ∧
    ∀ r : AddressRange, r.start ≤ r.stop → r.stop + 2 ^ k ≤ 2 ^ 64 →
      (r.alignBroaden (2 ^ k)).Aligned (2 ^ k) ∧ (r.alignBroaden (2 ^ k)).Contains r ∧
        (∀ outer : AddressRange, outer.Aligned (2 ^ k) → outer.Contains r →
          outer.Contains (r.alignBroaden (2 ^ k))) ∧
        (r.start < r.stop → ∀ outer : AddressRange, outer.Aligned (2 ^ k) →
          (∀ x, r.overlaps x = true → outer.overlaps x = true) →
          ∀ x, (r.alignBroaden (2 ^ k)).overlaps x = true → outer.overlaps x = true) := by
  have positive : 0 < 2 ^ k := Nat.two_pow_pos k
  refine ⟨HeapRanges.alignDefined positive bound, HeapRanges.alignEndDefined positive bound,
    HeapRanges.align_eq_error_iff positive bound,
    HeapRanges.align_eq_ok_of_wholePage positive bound,
    HeapRanges.alignEnd_eq_error_iff positive bound,
    HeapRanges.alignEnd_eq_ok_of_boundary positive bound, ?_⟩
  intro r ordered small
  obtain ⟨aligned, contains, least⟩ := AddressRange.alignBroaden_least positive ordered small
  refine ⟨aligned, contains, least, ?_⟩
  intro nonempty outer outerAligned around x inside
  exact AddressRange.alignBroaden_overlaps positive nonempty small outerAligned around inside

/-- A span of four pages that starts in the middle of one keeps the three whole pages
behind its start; as a first range it keeps its start. -/
theorem heap_alignment_sample :
    HeapRanges.align (2 ^ 12) ⟨0x1800, 0x4000⟩ = .ok ⟨0x2000, 0x3000⟩ ∧
    HeapRanges.alignEnd (2 ^ 12) ⟨0x1800, 0x4000⟩ = .ok ⟨0x1800, 0x3800⟩ ∧
    (AddressRange.alignBroaden ⟨0x1800, 0x5800⟩ (2 ^ 12)).Contains ⟨0x1800, 0x5800⟩ ∧
    ∃ r, HeapRanges.align (2 ^ 12) ⟨0x1800, 0x4000⟩ = .ok r ∧
      0x1800 ≤ r.data ∧ r.stop ≤ 0x5800 := by
  have bound : Span.stop ⟨0x1800, 0x4000⟩ + 2 ^ 12 ≤ 2 ^ 64 := by decide
  obtain ⟨-, -, -, whole, -, -, broaden⟩ := heap_alignment_keeps_whole_pages bound
  obtain ⟨r, aligned, low, high, -⟩ := whole ⟨0x2000, by decide, by decide, by decide⟩
  exact ⟨by decide +kernel, by decide +kernel,
    (broaden ⟨0x1800, 0x5800⟩ (by decide) (by decide)).2.1, r, aligned, low, high⟩

end Monza
