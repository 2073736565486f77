import Monza.Heap
import Monza.Lib.Transition
import Mathlib.Data.List.Perm.Basic

/-!
# Memory for a compartment

`CompartmentMemory` owns a block that holds objects of one type. The size of the block is kept in
bytes, and a view of the block gives this number as its number of objects. A move hands the
block over, and the object that owns it at the end of its life returns it.
-/

namespace Monza

open Outcome Transition

/-- The element type: the class `NoData`, for which there is no memory, or a type of some size. -/
inductive ElementType where
  | noData
  | object (bytes : Nat) (pos : 0 < bytes)
  deriving DecidableEq, Repr

/-- `sizeof(T)`. An empty class has the size one. -/
def ElementType.sizeof : ElementType → Nat
  | .noData => 1
  | .object bytes _ => bytes

/-- What is used of `snmalloc`: `bits::next_pow2`, which is right up to the largest power of two of
a word and returns some power of two, or zero, for what is above; and `MIN_CHUNK_SIZE`. -/
structure SizeRounding where
  nextPow2 : Nat → Nat
  le_nextPow2 : ∀ x ≤ 2 ^ 63, x ≤ nextPow2 x
  nextPow2_le : ∀ x, nextPow2 x ≤ 2 ^ 63
  minChunkSize : Nat
  minChunkSize_pos : 0 < minChunkSize
  minChunkSize_le : minChunkSize ≤ 2 ^ 63

/-- The members, with a number for the state of the allocator and zero for the null pointer. -/
structure CompartmentMemory where
  allocState : Option Nat
  base : Nat
  allocSize : Nat
  deriving DecidableEq, Repr

namespace CompartmentMemory

/-- Memory by address. -/
abbrev Bytes := Nat → UInt8

def memset (memory : Bytes) (address : Nat) (value : UInt8) (size : Nat) : Bytes :=
  fun a => if address ≤ a ∧ a < address + size then value else memory a

def memcpy (memory : Bytes) (destination source size : Nat) : Bytes :=
  fun a => if destination ≤ a ∧ a < destination + size then memory (source + (a - destination))
    else memory a

section Definitions

variable (rounding : SizeRounding) (allocRange : Nat → Option Nat) (clear zeroInit : Bool)
variable (T : ElementType) (state : Nat)

/-- `do_alloc`, for an allocator that returns an address or null. -/
def doAlloc (allocSize initSize : Nat) (memory : Bytes) : Result (CompartmentMemory × Bytes) :=
  match allocRange allocSize with
  | none => .error .kabort
  | some base => .ok (⟨some state, base, allocSize⟩,
      if clear then memset memory base 0 allocSize
      else if zeroInit then memset memory base 0 initSize
      else memory)

/-- The part that both constructors have in common. -/
def allocBytes (bytes : Nat) (memory : Bytes) : Result (CompartmentMemory × Bytes) :=
  doAlloc allocRange clear zeroInit state (max (rounding.nextPow2 bytes) rounding.minChunkSize)
    bytes memory

/-- The constructor for one object. -/
def single (memory : Bytes) : Result (CompartmentMemory × Bytes) :=
  match T with
  | .noData => .ok (⟨some state, 0, 0⟩, memory)
  | .object sizeof _ => allocBytes rounding allocRange clear zeroInit state sizeof memory

/-- The constructor for a number of objects, which `alloc_compartment_memory` calls. -/
def array (count : Nat) (memory : Bytes) : Result (CompartmentMemory × Bytes) :=
  match T with
  | .noData => .ok (⟨some state, 0, 0⟩, memory)
  | .object sizeof _ =>
    if count = 0 then .ok (⟨some state, 0, 0⟩, memory)
    else allocBytes rounding allocRange clear zeroInit state (u64 (count * sizeof)) memory

/-- The source of a move, afterwards. The new object has all members of the source before. -/
def movedFrom : CompartmentMemory := ⟨none, 0, 0⟩

/-- The destructor: the call of `dealloc_range`, with the state that it goes through. -/
def destructor (m : CompartmentMemory) : Option (Option Nat × Span) :=
  match T with
  | .noData => none
  | .object _ _ => if m.allocSize > 0 then some (m.allocState, ⟨m.base, m.allocSize⟩) else none

/-- `fill`, from a span with its number of objects as size. -/
def fill (m : CompartmentMemory) (source : Span) (memory : Bytes) : Bool × Bytes :=
  let sourceSize := u64 (T.sizeof * source.size)
  if sourceSize < m.allocSize then (true, memcpy memory m.base source.data sourceSize)
  else (false, memory)

/-- `span`, with its number of objects as size. -/
def span (m : CompartmentMemory) : Span := ⟨m.base, m.allocSize⟩

end Definitions

/-! ## Moves and the end of life -/

section Life

/-- The objects that are alive, and the blocks that were returned. -/
structure Objects where
  live : List CompartmentMemory
  returned : List (Option Nat × Span)
  deriving DecidableEq, Repr

inductive Event where
  | move (i : Nat)
  | destroy (i : Nat)
  deriving DecidableEq, Repr

def Event.next (T : ElementType) (s : Objects) : Event → Option Objects
  | .move i => s.live[i]?.map fun m => { s with live := s.live.set i movedFrom ++ [m] }
  | .destroy i => s.live[i]?.map fun m =>
      ⟨s.live.eraseIdx i, s.returned ++ (destructor T m).toList⟩

def Happens (T : ElementType) (s : Objects) (event : Event) (t : Objects) : Prop :=
  event.next T s = some t

variable {T : ElementType} {s t : Objects} {event : Event} {m : CompartmentMemory}

/-- The blocks that are owned or have been returned. -/
def Objects.blocks (T : ElementType) (s : Objects) : List (Option Nat × Span) :=
  s.live.filterMap (destructor T) ++ s.returned

theorem destructor_movedFrom : destructor T movedFrom = none := by
  cases T with
  | noData => rfl
  | object => rfl

theorem filterMap_cons_toList {α β : Type} (f : α → Option β) (a : α) (l : List α) :
    (a :: l).filterMap f = (f a).toList ++ l.filterMap f := by
  rw [List.filterMap_cons]
  cases f a with
  | none => rfl
  | some b => rfl

/-- The blocks of all objects, with one of them in front. -/
theorem filterMap_live {i : Nat} (live : s.live[i]? = some m) :
    (s.live.filterMap (destructor T)).Perm
      ((destructor T m).toList ++ (s.live.eraseIdx i).filterMap (destructor T)) := by
  obtain ⟨less, rfl⟩ := List.getElem?_eq_some_iff.mp live
  rw [← filterMap_cons_toList]
  exact (List.getElem_cons_eraseIdx_perm less).symm.filterMap _

/-- No block is lost and none is there twice. -/
theorem blocks_of_step (step : Happens T s event t) : (t.blocks T).Perm (s.blocks T) := by
  cases event with
  | move i =>
      obtain ⟨m, live, rfl⟩ := Option.map_eq_some_iff.mp step
      have less : i < s.live.length := (List.getElem?_eq_some_iff.mp live).1
      -- the source has nothing any more
      have source := (List.set_perm_cons_eraseIdx less movedFrom).filterMap (destructor T)
      rw [filterMap_cons_toList, destructor_movedFrom] at source
      change ((s.live.set i movedFrom ++ [m]).filterMap (destructor T) ++ s.returned).Perm _
      rw [List.filterMap_append, filterMap_cons_toList, List.filterMap_nil, List.append_nil]
      refine List.Perm.append_right _ ?_
      exact (source.append_right _).trans (List.perm_append_comm.trans (filterMap_live live).symm)
  | destroy i =>
      obtain ⟨m, live, rfl⟩ := Option.map_eq_some_iff.mp step
      change ((s.live.eraseIdx i).filterMap (destructor T) ++
        (s.returned ++ (destructor T m).toList)).Perm _
      rw [← List.append_assoc]
      refine List.perm_append_comm.trans ?_
      rw [← List.append_assoc]
      exact (filterMap_live live).symm.append_right _

theorem blocks_of_run {events : List Event} (run : Run (Happens T) s events t) :
    (t.blocks T).Perm (s.blocks T) :=
  run.invariant (fun u => (u.blocks T).Perm (s.blocks T))
    (fun _ _ _ same step => (blocks_of_step step).trans same) (List.Perm.refl _)

/-- When all objects are gone, the block was returned once. -/
theorem returned_of_run {events : List Event} (run : Run (Happens T) ⟨[m], []⟩ events t)
    (gone : t.live = []) : t.returned = (destructor T m).toList := by
  have same := blocks_of_run run
  rw [Objects.blocks, Objects.blocks, gone, List.filterMap_nil, List.nil_append,
    filterMap_cons_toList, List.filterMap_nil, List.append_nil, List.append_nil] at same
  cases block : destructor T m with
  | none =>
      rw [block] at same
      exact List.perm_nil.mp same
  | some b =>
      rw [block] at same
      exact List.perm_singleton.mp same

end Life

/-! ## Views -/

section Views

variable {rounding : SizeRounding} {allocRange : Nat → Option Nat} {clear zeroInit : Bool}
variable {T : ElementType} {state count : Nat} {memory memory' : Bytes} {m : CompartmentMemory}
variable {source : Span}

/-- The two constructors agree for one object. -/
theorem single_eq_array (word : T.sizeof < 2 ^ 64) :
    single rounding allocRange clear zeroInit T state memory =
      array rounding allocRange clear zeroInit T state 1 memory := by
  cases T with
  | noData => rfl
  | object bytes pos =>
      change bytes < 2 ^ 64 at word
      rw [single, array, if_neg Nat.one_ne_zero, Nat.one_mul, u64_of_lt word]

/-- There is a block exactly if there is an object, and then it is what the allocator gave. -/
theorem array_eq_ok (run : array rounding allocRange clear zeroInit T state count memory =
    .ok (m, memory')) :
    ((T = .noData ∨ count = 0) ∧ m = ⟨some state, 0, 0⟩) ∨
    (T ≠ .noData ∧ count ≠ 0) ∧ m.allocState = some state ∧
      m.allocSize = max (rounding.nextPow2 (u64 (count * T.sizeof))) rounding.minChunkSize ∧
      allocRange m.allocSize = some m.base := by
  cases T with
  | noData =>
      cases run
      exact .inl ⟨.inl rfl, rfl⟩
  | object bytes pos =>
      rw [array] at run
      split at run
      next none =>
        cases run
        exact .inl ⟨.inr none, rfl⟩
      next some =>
        rw [allocBytes, doAlloc] at run
        split at run
        next => cases run
        next base allocated =>
          cases run
          exact .inr ⟨⟨fun no => (by cases no), some⟩, rfl, rfl, allocated⟩

/-- All that is asked of a block for `count` objects and of a source for `fill`. -/
structure Inside (allocRange : Nat → Option Nat) (T : ElementType) (count : Nat) (source : Span)
    (memory : Bytes) (m : CompartmentMemory) : Prop where
  allocated : m.allocSize ≠ 0 → allocRange m.allocSize = some m.base
  holds : m.allocSize ≠ 0 → count * T.sizeof ≤ m.allocSize
  elements : ∀ i < m.span.size, m.span.data + i * T.sizeof + T.sizeof ≤ m.base + m.allocSize
  fills : (m.fill T source memory).1 = true ↔ T.sizeof * source.size ≤ m.allocSize
  writes : ∀ a, a < m.base ∨ m.base + m.allocSize ≤ a → (m.fill T source memory).2 a = memory a
  returned : ∀ events t, Run (Happens T) ⟨[m], []⟩ events t → t.live = [] →
    t.returned = if m.allocSize = 0 then [] else [(m.allocState, ⟨m.base, m.allocSize⟩)]

theorem holds_iff (size : m.allocSize = max (rounding.nextPow2 (u64 (count * T.sizeof)))
    rounding.minChunkSize) : count * T.sizeof ≤ m.allocSize ↔ count * T.sizeof ≤ 2 ^ 63 := by
  rw [size]
  constructor
  · intro fits
    refine Nat.le_trans fits (Nat.max_le.mpr ⟨rounding.nextPow2_le _, rounding.minChunkSize_le⟩)
  · intro small
    rw [u64_of_lt (Nat.lt_of_le_of_lt small (by decide))]
    exact Nat.le_trans (rounding.le_nextPow2 _ small) (Nat.le_max_left _ _)

theorem sizeof_pos : 0 < T.sizeof := by
  cases T with
  | noData => exact Nat.one_pos
  | object _ pos => exact pos

/-- A view has one object for each byte. -/
theorem elements_iff (some : m.allocSize ≠ 0) :
    (∀ i < m.span.size, m.span.data + i * T.sizeof + T.sizeof ≤ m.base + m.allocSize) ↔
      T.sizeof = 1 := by
  have pos := @sizeof_pos T
  constructor
  · intro inside
    have last := inside (m.allocSize - 1) (Nat.sub_one_lt some)
    change m.base + _ + _ ≤ _ at last
    rw [Nat.add_assoc, Nat.add_le_add_iff_left, ← Nat.succ_mul,
      Nat.succ_eq_add_one, Nat.sub_add_cancel (Nat.pos_of_ne_zero some)] at last
    have one : T.sizeof ≤ 1 :=
      Nat.le_of_mul_le_mul_left (by rwa [Nat.mul_one]) (Nat.pos_of_ne_zero some)
    omega
  · intro one i hi
    change i < m.allocSize at hi
    change m.base + _ + _ ≤ _
    rw [one]
    omega

/-- The size of the block for so many objects. -/
def sizeFor (rounding : SizeRounding) (T : ElementType) (count : Nat) : Nat :=
  if T = .noData ∨ count = 0 then 0
  else max (rounding.nextPow2 (u64 (count * T.sizeof))) rounding.minChunkSize

/-- What keeps the views inside: objects of one byte, not too many of them, and a source that does
not have exactly the size of the block. A source that is too large for the address space must not
wrap to a size that fits. -/
structure Fitting (rounding : SizeRounding) (T : ElementType) (count : Nat) (source : Span) :
    Prop where
  objects : T ≠ .noData → count ≠ 0 → T.sizeof = 1 ∧ count * T.sizeof ≤ 2 ^ 63
  source : if T.sizeof * source.size < 2 ^ 64
    then T.sizeof * source.size ≠ sizeFor rounding T count
    else sizeFor rounding T count ≤ u64 (T.sizeof * source.size)

theorem sizeFor_le : sizeFor rounding T count ≤ 2 ^ 63 := by
  rw [sizeFor]
  split
  next => exact Nat.zero_le _
  next => exact Nat.max_le.mpr ⟨rounding.nextPow2_le _, rounding.minChunkSize_le⟩

theorem fills_iff (small : m.allocSize ≤ 2 ^ 63) :
    ((m.fill T source memory).1 = true ↔ T.sizeof * source.size ≤ m.allocSize) ↔
      if T.sizeof * source.size < 2 ^ 64 then T.sizeof * source.size ≠ m.allocSize
      else m.allocSize ≤ u64 (T.sizeof * source.size) := by
  have result : (m.fill T source memory).1 = true ↔
      u64 (T.sizeof * source.size) < m.allocSize := by
    rw [fill]
    split
    next less => exact iff_of_true rfl less
    next less => exact iff_of_false Bool.false_ne_true less
  rw [result]
  split
  next word =>
    rw [u64_of_lt word]
    omega
  next wraps => omega

theorem fill_frame {a : Nat} (outside : a < m.base ∨ m.base + m.allocSize ≤ a) :
    (m.fill T source memory).2 a = memory a := by
  rw [fill]
  split
  next less => exact if_neg (by omega)
  next => rfl

theorem destructor_toList (none : T = .noData → m.allocSize = 0) : (destructor T m).toList =
    if m.allocSize = 0 then [] else [(m.allocState, ⟨m.base, m.allocSize⟩)] := by
  cases T with
  | noData => rw [if_pos (none rfl)]; rfl
  | object =>
      rw [destructor]
      by_cases empty : m.allocSize = 0
      · rw [if_neg (by omega), if_pos empty]
        rfl
      · rw [if_pos (Nat.pos_of_ne_zero empty), if_neg empty]
        rfl

theorem allocSize_eq (run : array rounding allocRange clear zeroInit T state count memory =
    .ok (m, memory')) : m.allocSize = sizeFor rounding T count := by
  rw [sizeFor]
  rcases array_eq_ok run with ⟨none, rfl⟩ | ⟨some, -, size, -⟩
  · rw [if_pos none]
  · rw [if_neg (not_or.mpr some), size]

theorem allocSize_eq_zero_iff : sizeFor rounding T count = 0 ↔ T = .noData ∨ count = 0 := by
  have chunk := rounding.minChunkSize_pos
  rw [sizeFor]
  split
  next none => exact iff_of_true rfl none
  next some =>
    refine iff_of_false ?_ some
    have := Nat.le_max_right (rounding.nextPow2 (u64 (count * T.sizeof))) rounding.minChunkSize
    omega

/-- The views stay inside the block exactly for bytes, and for a source that does not fill it
exactly. What is returned is always the block. -/
theorem compartment_memory_inside_iff (rounding : SizeRounding) (allocRange : Nat → Option Nat)
    (clear zeroInit : Bool) (T : ElementType) (state count : Nat) (before after now : Bytes)
    (source : Span) (m : CompartmentMemory)
    (run : array rounding allocRange clear zeroInit T state count before = .ok (m, after)) :
    Inside allocRange T count source now m ↔ Fitting rounding T count source := by
  have size := allocSize_eq run
  have fill : ((m.fill T source now).1 = true ↔ T.sizeof * source.size ≤ m.allocSize) ↔ _ :=
    fills_iff (size ▸ sizeFor_le)
  rw [size] at fill
  have none : m.allocSize = 0 ↔ T = .noData ∨ count = 0 := by rw [size, allocSize_eq_zero_iff]
  have objects : ∀ some : m.allocSize ≠ 0,
      (count * T.sizeof ≤ m.allocSize ↔ count * T.sizeof ≤ 2 ^ 63) := by
    intro some
    rcases array_eq_ok run with ⟨-, rfl⟩ | ⟨-, -, size, -⟩
    · exact absurd rfl some
    · exact holds_iff size
  constructor
  · intro inside
    refine ⟨fun typed counted => ?_, fill.mp ?_⟩
    · have some : m.allocSize ≠ 0 := fun zero => (none.mp zero).elim typed counted
      exact ⟨(elements_iff some).mp inside.elements, (objects some).mp (inside.holds some)⟩
    · rw [← size]
      exact inside.fills
  · rintro ⟨fits, exactly⟩
    have fits : ∀ some : m.allocSize ≠ 0, T.sizeof = 1 ∧ count * T.sizeof ≤ 2 ^ 63 := by
      intro some
      rw [ne_eq, none, not_or] at some
      exact fits some.1 some.2
    refine ⟨fun some => ?_, fun some => (objects some).mpr (fits some).2, ?_, ?_,
      fun a => fill_frame, fun events t run gone => ?_⟩
    · rcases array_eq_ok run with ⟨-, rfl⟩ | ⟨-, -, -, allocated⟩
      · exact absurd rfl some
      · exact allocated
    · by_cases zero : m.allocSize = 0
      · intro i hi
        change i < m.allocSize at hi
        omega
      · exact (elements_iff zero).mpr (fits zero).1
    · rw [size]
      exact fill.mpr exactly
    · rw [returned_of_run run gone, destructor_toList fun typed => none.mpr (.inl typed)]

/-- The least power of two that is not below, and one if there is none. -/
def leastPow2 (x : Nat) : Nat := (((List.range 64).map (2 ^ ·)).find? (x ≤ ·)).getD 1

theorem leastPow2_cases (x : Nat) :
    (∃ k < 64, leastPow2 x = 2 ^ k ∧ x ≤ 2 ^ k) ∨ leastPow2 x = 1 ∧ 2 ^ 63 < x := by
  rw [leastPow2]
  cases found : ((List.range 64).map (2 ^ ·)).find? (x ≤ ·) with
  | none =>
      rw [List.find?_eq_none] at found
      have above := found (2 ^ 63) (List.mem_map.mpr ⟨63, List.mem_range.mpr (by decide), rfl⟩)
      rw [decide_eq_true_eq] at above
      exact .inr ⟨rfl, Nat.lt_of_not_le above⟩
  | some y =>
      obtain ⟨k, hk, rfl⟩ := List.mem_map.mp (List.mem_of_find?_eq_some found)
      have le := List.find?_some found
      rw [decide_eq_true_eq] at le
      exact .inl ⟨k, List.mem_range.mp hk, rfl, le⟩

/-- Rounding with chunks of 16 KiB. -/
def sampleRounding : SizeRounding where
  nextPow2 := leastPow2
  le_nextPow2 x small := by
    rcases leastPow2_cases x with ⟨k, -, same, le⟩ | ⟨-, above⟩
    · rw [same]
      exact le
    · omega
  nextPow2_le x := by
    rcases leastPow2_cases x with ⟨k, less, same, -⟩ | ⟨same, -⟩
    · rw [same]
      exact Nat.pow_le_pow_right (by decide) (Nat.le_of_lt_succ less)
    · rw [same]
      decide
  minChunkSize := 0x4000
  minChunkSize_pos := by decide
  minChunkSize_le := by decide

/-- A hundred bytes, half of them filled. -/
theorem compartment_memory_inside_iff_bytes :
    Inside (fun _ => some 0x100000) (.object 1 (by decide)) 100 ⟨0x5000, 50⟩ (fun _ => 0)
      ⟨some 1, 0x100000, 0x4000⟩ := by
  have run : array sampleRounding (fun _ => some 0x100000) true false (.object 1 (by decide)) 1 100
      (fun _ => 7) = .ok (⟨some 1, 0x100000, 0x4000⟩, memset (fun _ => 7) 0x100000 0 0x4000) := by
    have size : max (sampleRounding.nextPow2 (u64 (100 * 1))) sampleRounding.minChunkSize =
        0x4000 := by decide +kernel
    rw [array, if_neg (by decide), allocBytes, size]
    rfl
  apply (compartment_memory_inside_iff _ _ _ _ _ _ _ _ _ _ _ _ run).mpr
  refine ⟨fun _ _ => by decide, ?_⟩
  rw [if_pos (by decide)]
  decide +kernel

/-- The block for one object of eight bytes. -/
def sampleBlock : CompartmentMemory := ⟨some 1, 0x100000, 0x4000⟩

/-- Its view has objects behind the block, and it cannot be filled exactly. So many objects that
their size wraps get the same block. -/
theorem compartment_memory_outside :
    ((array sampleRounding (fun _ => some 0x100000) true false (.object 8 (by decide)) 1 1
        (fun _ => 7)).map Prod.fst = .ok sampleBlock ∧
      ∃ i < sampleBlock.span.size,
        sampleBlock.base + sampleBlock.allocSize < sampleBlock.span.data + i * 8 + 8) ∧
    (8 * 0x800 = sampleBlock.allocSize ∧
      (fill (.object 8 (by decide)) sampleBlock ⟨0x5000, 0x800⟩ (fun _ => 0)).1 = false) ∧
    ((array sampleRounding (fun _ => some 0x100000) true false (.object 8 (by decide)) 1
        (2 ^ 61 + 1) (fun _ => 7)).map Prod.fst = .ok sampleBlock ∧
      sampleBlock.allocSize < (2 ^ 61 + 1) * 8) := by
  refine ⟨⟨by decide +kernel, 0x3fff, by decide, by decide⟩, ⟨by decide, by decide⟩, ?_⟩
  exact ⟨by decide +kernel, by decide⟩

end Views

end CompartmentMemory

end Monza
