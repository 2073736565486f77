import Monza.Sev.MemoryMap
import Mathlib.Data.List.Nodup

/-!
# Accepting private memory

Private memory outside the loaded image is accepted in two places: `init_hyperv_sev`
accepts the sections that are not loaded, up to a page boundary behind the start of the
heap, and `setup_heap_sev` goes on from there to the end of the heap, holes included. The
two ranges are computed apart from each other and meet at the boundary.
-/

namespace Monza.Sev

open Outcome

/-- The linker symbols behind the loaded image. -/
structure SevImage where
  unloadedStart : Nat
  heapStart : Nat
  unloaded_le : unloadedStart ≤ heapStart
  heapStart_lt : heapStart < 2 ^ 64

/-- The sections that are not loaded. -/
def SevImage.alignedUnmappedRange (ps : PageSize) (image : SevImage) : AddressRange :=
  ((AddressRange.ofBounds image.unloadedStart image.heapStart).alignUpStart hvPageSize).alignUpEnd
    ps.bytes

/-- The memory that `init_hyperv_sev` accepts. -/
def initHypervSev (ps : PageSize) (image : SevImage) : Result (List Nat) :=
  acceptPrivateMemory (image.alignedUnmappedRange ps)

/-- The pages from `a` until `b` is reached. -/
def pagesOf (a b : Nat) : List Nat :=
  List.range' a ((b - a + (rmpGranularity - 1)) / rmpGranularity) rmpGranularity

section Pages

variable {a b c x : Nat}

theorem mem_pagesOf (ha : a % rmpGranularity = 0) :
    x ∈ pagesOf a b ↔ x % rmpGranularity = 0 ∧ a ≤ x ∧ x < b := by
  rw [pagesOf, List.mem_range']
  simp only [rmpGranularity] at *
  constructor
  · rintro ⟨i, hi, rfl⟩
    omega
  · intro h
    exact ⟨(x - a) / 4096, by omega, by omega⟩

theorem nodup_pagesOf (a b : Nat) : (pagesOf a b).Nodup :=
  List.nodup_range' rmpGranularity (by decide)

/-- The loop ends unless the last page of the address space is below the end. -/
theorem acceptPrivateMemory_of_le {range : AddressRange}
    (stop : range.stop ≤ 2 ^ 64 - rmpGranularity) :
    acceptPrivateMemory range = .ok (pagesOf range.start range.stop) := by
  -- the pages so far, the last of them below the end
  let inv (a : Nat) (pages : List Nat) : Prop := ∃ i, a = range.start + rmpGranularity * i ∧
    pages = List.range' range.start i rmpGranularity ∧ (i = 0 ∨ a < range.stop + rmpGranularity)
  have total : Sat (acceptPrivateMemory range)
      (fun pages => ∃ a, inv a pages ∧ decide (a < range.stop) = false) (fun _ => False) := by
    refine loop_total inv (fun a => (range.stop - a + (rmpGranularity - 1)) / rmpGranularity)
      ?_ ⟨0, rfl, rfl, .inl rfl⟩ ?_
    · rintro a pages ⟨i, rfl, rfl, -⟩ more
      have more := of_decide_eq_true more
      have next : u64 (range.start + rmpGranularity * i + rmpGranularity) =
          range.start + rmpGranularity * (i + 1) := by
        simp only [rmpGranularity, u64] at *
        omega
      rw [next]
      refine ⟨?_, i + 1, rfl, ?_, .inr ?_⟩
      · simp only [rmpGranularity] at *
        omega
      · rw [List.range'_concat]
      · simp only [rmpGranularity] at *
        omega
    · simp only [rmpGranularity, acceptBudget] at *
      omega
  refine (total.mono_post ?_).eq_ok
  rintro pages ⟨a, ⟨i, rfl, rfl, last⟩, done⟩
  have done := of_decide_eq_false done
  have count : (range.stop - range.start + (rmpGranularity - 1)) / rmpGranularity = i := by
    simp only [rmpGranularity] at *
    omega
  rw [pagesOf, count]

/-- It does not end if that page is below. -/
theorem le_of_acceptPrivateMemory {range : AddressRange} {pages : List Nat}
    (start : range.start % rmpGranularity = 0) (bound : range.start < 2 ^ 64)
    (h : acceptPrivateMemory range = .ok pages) : range.stop ≤ 2 ^ 64 - rmpGranularity := by
  have partly : Sat (acceptPrivateMemory range)
      (fun _ => ∃ a, (a % rmpGranularity = 0 ∧ a < 2 ^ 64) ∧ decide (a < range.stop) = false)
      (fun _ => True) := by
    refine loop_invariant (fun a _ => a % rmpGranularity = 0 ∧ a < 2 ^ 64) ?_ ⟨start, bound⟩
    rintro a pages ⟨aligned, -⟩ -
    refine ⟨?_, u64_lt _⟩
    simp only [rmpGranularity, u64] at *
    omega
  obtain ⟨a, ⟨aligned, bound⟩, done⟩ := partly.of_ok h
  have done := of_decide_eq_false done
  simp only [rmpGranularity] at *
  omega

end Pages

section Ranges

variable {ps : PageSize} {image : SevImage}

theorem mod_rmpGranularity (ps : PageSize) {a : Nat} (h : a % ps.bytes = 0) :
    a % rmpGranularity = 0 := by
  cases ps <;> simp only [PageSize.bytes, rmpGranularity] at * <;> omega

theorem rmpGranularity_le (ps : PageSize) : rmpGranularity ≤ ps.bytes := by
  cases ps <;> decide

theorem top_mod_bytes (ps : PageSize) : (2 ^ 64 - ps.bytes) % ps.bytes = 0 := by
  cases ps <;> decide

/-- Page boundaries do not wrap unless the last page does. -/
theorem alignUp_le_top (ps : PageSize) {a : Nat} (h : a + ps.bytes ≤ 2 ^ 64) :
    alignUp a ps.bytes ≤ 2 ^ 64 - ps.bytes :=
  alignUp_le_of_mod ps.bytes_pos (top_mod_bytes ps) (by omega)

theorem alignedUnmappedRange_eq (ps : PageSize) (image : SevImage) :
    image.alignedUnmappedRange ps =
      ⟨alignUp image.unloadedStart hvPageSize, max (alignUp image.unloadedStart hvPageSize)
        (alignUp (max (alignUp image.unloadedStart hvPageSize) image.heapStart) ps.bytes)⟩ := by
  rw [SevImage.alignedUnmappedRange, AddressRange.alignUpStart_eq, AddressRange.alignUpEnd,
    AddressRange.ofBounds_stop, AddressRange.ofBounds_start, Nat.max_eq_right image.unloaded_le]
  exact congrArg _ (AddressRange.ofBounds_stop _ _)

/-- The sections that are not loaded end at the page boundary behind the start of the heap. -/
theorem alignedUnmappedRange_of_le (h : image.heapStart + ps.bytes ≤ 2 ^ 64) :
    alignUp image.unloadedStart hvPageSize ≤ alignUp image.heapStart ps.bytes ∧
      image.alignedUnmappedRange ps =
        ⟨alignUp image.unloadedStart hvPageSize, alignUp image.heapStart ps.bytes⟩ := by
  have ordered := image.unloaded_le
  have up := le_alignUp ps.bytes_pos h
  have top := alignUp_le_top ps h
  have below : alignUp image.unloadedStart hvPageSize ≤ alignUp image.heapStart ps.bytes :=
    alignUp_le_of_mod (by decide) (mod_rmpGranularity ps (alignUp_mod _ _))
      (Nat.le_trans ordered up)
  refine ⟨below, ?_⟩
  rw [alignedUnmappedRange_eq, alignUp_of_between ps.bytes_pos (by omega)
    (Nat.le_max_right _ _) (Nat.max_le.mpr ⟨below, up⟩), Nat.max_eq_right below]

/-- Nothing is left of them if the boundary wraps. -/
theorem alignedUnmappedRange_of_wrap (h : 2 ^ 64 < image.heapStart + ps.bytes) :
    image.alignedUnmappedRange ps =
      ⟨alignUp image.unloadedStart hvPageSize, alignUp image.unloadedStart hvPageSize⟩ := by
  have bound : alignUp image.unloadedStart hvPageSize < 2 ^ 64 :=
    Nat.lt_of_le_of_lt (Nat.div_mul_le_self _ _) (u64_lt _)
  have := image.heapStart_lt
  have wraps : alignUp (max (alignUp image.unloadedStart hvPageSize) image.heapStart)
      ps.bytes = 0 := alignUp_of_wrap (by omega) (by omega)
  rw [alignedUnmappedRange_eq, wraps, Nat.max_zero]

end Ranges

variable {ps : PageSize} {vtom : Nat} {map : MemoryMap} {image : SevImage} {m : SevMemory}

/-- The last range ends behind all others. -/
theorem Progress.stop_le_last {heapStart : Nat} {entries : List SevMemoryMapEntry} {s : HeapSetup}
    (h : Progress ps heapStart vtom entries s) :
    ∀ r ∈ s.heap.ranges, r.stop ≤ s.heap.last.stop := by
  have ascending := h.ascending
  obtain ⟨front, ranges⟩ := s.heap.exists_ranges_eq
  rw [ranges] at ascending ⊢
  intro r hr
  rcases List.mem_append.mp hr with hr | hr
  · have before := (List.pairwise_append.mp ascending).2.2 r hr _ (List.mem_singleton_self _)
    refine Nat.le_trans before ?_
    exact Nat.le_add_right _ _
  · exact Nat.le_of_eq (congrArg Span.stop (List.mem_singleton.mp hr))

/-- The accepted pages are those from `lo` to `hi`, each of them once. -/
structure ValidatedOnce (lo hi : Nat) (pages : List Nat) : Prop where
  nodup : pages.Nodup
  mem : ∀ x, x ∈ pages ↔ x % rmpGranularity = 0 ∧ lo ≤ x ∧ x < hi

theorem ValidatedOnce.pagesOf {a b : Nat} (ha : a % rmpGranularity = 0) :
    ValidatedOnce a b (pagesOf a b) :=
  ⟨nodup_pagesOf a b, fun _ => mem_pagesOf ha⟩

theorem ValidatedOnce.append {a b c : Nat} {front back : List Nat} (hab : a ≤ b) (hbc : b ≤ c)
    (first : ValidatedOnce a b front) (second : ValidatedOnce b c back) :
    ValidatedOnce a c (front ++ back) := by
  refine ⟨List.nodup_append.mpr ⟨first.nodup, second.nodup, fun x hx y hy same => ?_⟩, fun x => ?_⟩
  · have := ((first.mem x).mp hx).2.2
    have := ((second.mem y).mp hy).2.1
    omega
  · rw [List.mem_append, first.mem, second.mem]
    omega

/-- The two ranges meet at the page boundary behind the start of the heap. -/
theorem validatedOnce_of_le {stop : Nat} {validated : List Nat}
    (room : image.heapStart + ps.bytes ≤ 2 ^ 64) (bound : stop ≤ 2 ^ 48)
    (accept : acceptPrivateMemory ⟨alignUp image.heapStart ps.bytes,
      max (alignUp image.heapStart ps.bytes) (max image.heapStart stop)⟩ = .ok validated) :
    ∃ unloaded, initHypervSev ps image = .ok unloaded ∧
      ValidatedOnce (alignUp image.unloadedStart hvPageSize)
        (max (alignUp image.heapStart ps.bytes) stop) (unloaded ++ validated) := by
  obtain ⟨below, range⟩ := alignedUnmappedRange_of_le room
  have up := le_alignUp ps.bytes_pos room
  have top := alignUp_le_top ps room
  have small := rmpGranularity_le ps
  have init : initHypervSev ps image = .ok (pagesOf (alignUp image.unloadedStart hvPageSize)
      (alignUp image.heapStart ps.bytes)) := by
    rw [initHypervSev, range]
    exact acceptPrivateMemory_of_le (by change alignUp image.heapStart ps.bytes ≤ _; omega)
  have same : max (alignUp image.heapStart ps.bytes) (max image.heapStart stop) =
      max (alignUp image.heapStart ps.bytes) stop := by
    omega
  rw [same, acceptPrivateMemory_of_le (by
    change max (alignUp image.heapStart ps.bytes) stop ≤ _
    simp only [rmpGranularity] at *
    omega)] at accept
  cases accept
  exact ⟨_, init, .append below (Nat.le_max_left _ _) (.pagesOf (alignUp_mod _ _))
    (.pagesOf (mod_rmpGranularity ps (alignUp_mod _ _)))⟩

/-- With the start of the heap on the last page the second range has all of memory below it. -/
theorem validatedOnce_of_wrap {validated : List Nat} (wraps : 2 ^ 64 < image.heapStart + ps.bytes)
    (accept : acceptPrivateMemory ⟨alignUp image.heapStart ps.bytes,
      max (alignUp image.heapStart ps.bytes) (max image.heapStart 0)⟩ = .ok validated) :
    initHypervSev ps image = .ok [] ∧ ValidatedOnce 0 image.heapStart ([] ++ validated) := by
  rw [alignUp_of_wrap image.heapStart_lt wraps, Nat.max_zero, Nat.zero_max] at accept
  have stop := le_of_acceptPrivateMemory (Nat.zero_mod _) (Nat.two_pow_pos 64) accept
  rw [acceptPrivateMemory_of_le stop] at accept
  cases accept
  refine ⟨?_, .pagesOf (Nat.zero_mod _)⟩
  have aligned := alignUp_mod image.unloadedStart hvPageSize
  have bound : alignUp image.unloadedStart hvPageSize < 2 ^ 64 :=
    Nat.lt_of_le_of_lt (Nat.div_mul_le_self _ _) (u64_lt _)
  rw [initHypervSev, alignedUnmappedRange_of_wrap wraps, acceptPrivateMemory_of_le]
  · simp [pagesOf, rmpGranularity]
  · change alignUp image.unloadedStart hvPageSize ≤ _
    simp only [hvPageSize, rmpGranularity] at *
    omega

/-- All that is accepted is one run of pages that begins behind the loaded image and reaches the
end of the heap. -/
theorem exists_validatedOnce (h : setupHeapSev ps image.heapStart vtom map = .ok m) :
    ∃ unloaded lo hi, initHypervSev ps image = .ok unloaded ∧
      ValidatedOnce lo hi (unloaded ++ m.validated) ∧
      lo ≤ alignUp image.unloadedStart hvPageSize ∧ image.heapStart ≤ hi ∧
      (∀ r ∈ m.heap.ranges, r.stop ≤ hi) ∧ (vtom ≠ 0 → hi ≤ vtom) := by
  obtain ⟨top, s, validated, run, above, accept, rfl⟩ := setupHeapSev_eq_ok h
  rw [u64_largestValidAddress, AddressRange.alignUpStart_eq, AddressRange.ofBounds_stop,
    AddressRange.ofBounds_start] at accept
  cases null : map[0].isNull with
  | true =>
      rw [setupEntries_of_null null] at run
      cases run
      have unused : vtom = 0 := by
        by_contra used
        exact above used rfl
      have none : ∀ r ∈ HeapRanges.initial.ranges, r.stop ≤ 0 := by decide
      have stop : u64 HeapRanges.initial.last.stop = 0 := by decide
      change acceptPrivateMemory ⟨_, max _ (max _ (u64 HeapRanges.initial.last.stop))⟩ = _ at accept
      rw [stop] at accept
      by_cases room : image.heapStart + ps.bytes ≤ 2 ^ 64
      · obtain ⟨unloaded, init, once⟩ := validatedOnce_of_le room (by decide) accept
        refine ⟨unloaded, _, _, init, once, Nat.le_refl _, ?_, fun r hr => ?_, fun used => ?_⟩
        · exact Nat.le_trans (le_alignUp ps.bytes_pos room) (Nat.le_max_left _ _)
        · exact Nat.le_trans (none r hr) (Nat.zero_le _)
        · exact absurd unused used
      · obtain ⟨init, once⟩ := validatedOnce_of_wrap (by omega) accept
        refine ⟨[], _, _, init, once, Nat.zero_le _, Nat.le_refl _, fun r hr => ?_, fun used => ?_⟩
        · exact Nat.le_trans (none r hr) (Nat.zero_le _)
        · exact absurd unused used
  | false =>
      have progress := setupEntries_progress top null run
      have bound : s.heap.last.stop ≤ 2 ^ 48 := by
        obtain ⟨front, ranges⟩ := s.heap.exists_ranges_eq
        have mem : s.heap.last ∈ s.heap.ranges := by simp [ranges]
        exact Nat.le_trans (progress.placed _ mem).bound progress.bound
      have start : image.heapStart < s.heap.last.stop := by
        have nonempty := (progress.placed _ (List.mem_cons_self ..)).nonempty
        have first := progress.stop_le_last _ (List.mem_cons_self ..)
        rw [Span.stop, progress.start] at first
        omega
      have room : image.heapStart + ps.bytes ≤ 2 ^ 64 := by
        have := ps.bytes_le
        omega
      rw [u64_of_lt (by omega)] at accept
      obtain ⟨unloaded, init, once⟩ := validatedOnce_of_le room bound accept
      refine ⟨unloaded, _, _, init, once, Nat.le_refl _, ?_, fun r hr => ?_, fun used => ?_⟩
      · exact Nat.le_trans (Nat.le_of_lt start) (Nat.le_max_right _ _)
      · exact Nat.le_trans (progress.stop_le_last r hr) (Nat.le_max_right _ _)
      · refine Nat.max_le.mpr ⟨?_, ?_⟩
        · exact alignUp_le_of_mod ps.bytes_pos (top used).2 (Nat.le_of_lt (top used).1)
        · obtain ⟨front, ranges⟩ := s.heap.exists_ranges_eq
          exact (progress.placed _ (by simp [ranges])).below used

/-- The numbers of the pages that `pvalidate` is invoked on during boot, in order. -/
def validatedPages (unloaded : List Nat) (m : SevMemory) : List Nat :=
  (unloaded ++ m.validated).map (· / rmpGranularity)

theorem ValidatedOnce.mem_pages {lo hi p : Nat} {unloaded : List Nat}
    (once : ValidatedOnce lo hi (unloaded ++ m.validated)) :
    p ∈ validatedPages unloaded m ↔ lo ≤ p * rmpGranularity ∧ p * rmpGranularity < hi := by
  rw [validatedPages, List.mem_map]
  constructor
  · rintro ⟨x, hx, rfl⟩
    obtain ⟨aligned, inside⟩ := (once.mem x).mp hx
    rwa [Nat.div_mul_cancel (Nat.dvd_of_mod_eq_zero aligned)]
  · intro inside
    exact ⟨_, (once.mem _).mpr ⟨Nat.mul_mod_left _ _, inside⟩, Nat.mul_div_left _ (by decide)⟩

theorem ValidatedOnce.nodup_pages {lo hi : Nat} {unloaded : List Nat}
    (once : ValidatedOnce lo hi (unloaded ++ m.validated)) : (validatedPages unloaded m).Nodup := by
  refine once.nodup.map_on fun x hx y hy same => ?_
  have := ((once.mem x).mp hx).1
  have := ((once.mem y).mp hy).1
  simp only [rmpGranularity] at *
  omega

/-- Private memory is accepted once: no page twice, every page from the first whole page behind the
loaded image to the start of the heap, every page of the heap that does not also hold a part
of the loaded image, and no page at or above the virtual top of memory. -/
theorem private_memory_accepted_once (h : setupHeapSev ps image.heapStart vtom map = .ok m) :
    ∃ unloaded, initHypervSev ps image = .ok unloaded ∧
      (validatedPages unloaded m).Nodup ∧
      (∀ p, alignUp image.unloadedStart hvPageSize ≤ p * rmpGranularity →
        p * rmpGranularity < image.heapStart → p ∈ validatedPages unloaded m) ∧
      (∀ r ∈ m.heap.ranges, ∀ p, r.data < (p + 1) * rmpGranularity → p * rmpGranularity < r.stop →
        image.unloadedStart ≤ p * rmpGranularity → p ∈ validatedPages unloaded m) ∧
      (vtom ≠ 0 → ∀ p ∈ validatedPages unloaded m, p * rmpGranularity < vtom) := by
  obtain ⟨unloaded, lo, hi, init, once, low, start, ranges, top⟩ := exists_validatedOnce h
  refine ⟨unloaded, init, once.nodup_pages, fun p behind before => ?_,
    fun r hr p _ before behind => ?_, fun used p hp => ?_⟩
  · exact once.mem_pages.mpr ⟨Nat.le_trans low behind, Nat.lt_of_lt_of_le before start⟩
  · refine once.mem_pages.mpr ⟨Nat.le_trans low ?_, Nat.lt_of_lt_of_le before (ranges r hr)⟩
    exact alignUp_le_of_mod (by decide) (Nat.mul_mod_left _ _) behind
  · exact Nat.lt_of_lt_of_le (once.mem_pages.mp hp).2 (top used)

/-- An image whose unloaded sections start within the page of the heap. -/
def sampleImage : SevImage := ⟨0x100400, 0x100800, by decide, by decide⟩

theorem private_memory_accepted_once_two_entries :
    ∃ m, setupHeapSev .kib4 sampleImage.heapStart 0x10c000 sampleMap = .ok m ∧
      ∃ unloaded, initHypervSev .kib4 sampleImage = .ok unloaded ∧
        (validatedPages unloaded m).Nodup ∧
        ∀ r ∈ m.heap.ranges, ∀ p, r.data < (p + 1) * rmpGranularity →
          p * rmpGranularity < r.stop → sampleImage.unloadedStart ≤ p * rmpGranularity →
          p ∈ validatedPages unloaded m := by
  have run : setupHeapSev .kib4 sampleImage.heapStart 0x10c000 sampleMap = .ok
      ⟨⟨⟨0x100800, 0x7800⟩, [⟨0x10a000, 0x2000⟩]⟩, ⟨0x10c000, 0x2000⟩,
        List.range' 0x101000 11 0x1000⟩ := by decide +kernel
  obtain ⟨unloaded, init, once, -, heap, -⟩ := private_memory_accepted_once run
  exact ⟨_, run, unloaded, init, once, heap⟩

/-- The page that such an image shares with the heap is not accepted again. -/
theorem shared_page_not_accepted :
    ∃ unloaded m r, initHypervSev .kib4 sampleImage = .ok unloaded ∧
      setupHeapSev .kib4 sampleImage.heapStart 0x10c000 sampleMap = .ok m ∧
      r ∈ m.heap.ranges ∧ r.data < (0x100 + 1) * rmpGranularity ∧
      0x100 * rmpGranularity < r.stop ∧ 0x100 ∉ validatedPages unloaded m := by
  refine ⟨[], ⟨⟨⟨0x100800, 0x7800⟩, [⟨0x10a000, 0x2000⟩]⟩, ⟨0x10c000, 0x2000⟩,
    List.range' 0x101000 11 0x1000⟩, ⟨0x100800, 0x7800⟩, ?_⟩
  decide +kernel

end Monza.Sev
