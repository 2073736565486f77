import Monza.Compartment.Memory

/-!
# The stacks of a compartment

Every invocation of a compartment has a stack of its own: the initial one, which lives as
long as the compartment, if no other invocation is active, and otherwise a new one, which is
destroyed when the invocation ends. Callbacks let invocations nest to any depth.

Whether the initial stack is in use is encoded by a flag and by the size of the deque
together. The pair encodes the acquired stacks, and releases them in the right order
(`invocation_stacks_lifo`). The limits in the thread control block are set when a stack is
acquired, but not when one is released: they are right exactly as long as the invocation that
runs is the one entered last (`tcb_describes_running_stack_iff`).
-/

namespace Monza

open Outcome Transition

section Spans

variable {a b c : Span}

theorem Span.Disjoint.symm (h : a.Disjoint b) : b.Disjoint a :=
  fun x lo hi lo' hi' => h x lo' hi' lo hi

theorem Span.Disjoint.subspan (h : a.Disjoint b) (start : a.data ≤ c.data)
    (stop : c.stop ≤ a.stop) : c.Disjoint b :=
  fun x lo hi => h x (Nat.le_trans start lo) (Nat.lt_of_lt_of_le hi stop)

theorem Span.Disjoint.data_ne (h : a.Disjoint b) (ha : 0 < a.size) (hb : 0 < b.size) :
    a.data ≠ b.data := by
  intro same
  refine h a.data (Nat.le_refl _) (Nat.lt_add_of_pos_right ha) (Nat.le_of_eq same.symm) ?_
  rw [same]
  exact Nat.lt_add_of_pos_right hb

end Spans

/-- `__stack_size` of the linker script, and the sizes of the allocator. -/
structure StackSizes where
  stackSize : Nat
  rounding : SizeRounding
  pos : 0 < stackSize
  bound : stackSize ≤ 2 ^ 63

/-- What `CompartmentMemory` allocates for a stack. -/
def StackSizes.allocSize (z : StackSizes) : Nat :=
  max (z.rounding.nextPow2 z.stackSize) z.rounding.minChunkSize

theorem StackSizes.stackSize_le (z : StackSizes) : z.stackSize ≤ z.allocSize :=
  Nat.le_trans (z.rounding.le_nextPow2 _ z.bound) (Nat.le_max_left ..)

/-- The members of `ArchitecturalCompartmentBase` for stacks, and the limits in the thread control
block. The deque is never empty: `front` and the elements behind it. -/
structure CompartmentStacks where
  front : Span
  rest : List Span
  isInitialStackUsed : Bool
  stackLimitLow : Nat
  stackLimitHigh : Nat
  deriving DecidableEq, Repr

namespace CompartmentStacks

section Definitions

variable (z : StackSizes)

/-- `CompartmentMemory<uint8_t, false, false>`, with the address that `alloc_range` answers, or
null. The bytes are left as they are. -/
def allocStack (answer : Option Nat) : Result Span := do
  let (memory, _) ← CompartmentMemory.array z.rounding (fun _ => answer) false false
    (.object 1 Nat.one_pos) 0 z.stackSize (fun _ => 0)
  .ok memory.span

/-- The constructor: the limits are null. -/
def construct (answer : Option Nat) : Result CompartmentStacks := do
  let initial ← allocStack z answer
  .ok ⟨initial, [], false, 0, 0⟩

/-- The choice of the stack in `get_stack`. -/
def takeStack (answer : Option Nat) (s : CompartmentStacks) : Result (Span × CompartmentStacks) :=
  if s.rest.length + 1 = 1 ∧ ¬ s.isInitialStackUsed then
    .ok (⟨s.front.data, z.stackSize⟩, { s with isInitialStackUsed := true })
  else do
    let newStack ← allocStack z answer
    .ok (newStack, { s with rest := s.rest ++ [newStack] })

def getStack (answer : Option Nat) (s : CompartmentStacks) : Result (Span × CompartmentStacks) := do
  let (stackRange, s) ← takeStack z answer s
  .ok (stackRange, { s with stackLimitLow := stackRange.data, stackLimitHigh := stackRange.stop })

/-- The memory that is given back, and the state. -/
def releaseStack (s : CompartmentStacks) : Option Span × CompartmentStacks :=
  if s.rest.length + 1 = 1 then (none, { s with isInitialStackUsed := false })
  else (s.rest.getLast?, { s with rest := s.rest.dropLast })

end Definitions

variable {z : StackSizes} {s s' : CompartmentStacks} {answer : Option Nat} {r : Span}
variable {ranges : List Span}

theorem allocStack_some (base : Nat) : allocStack z (some base) = .ok ⟨base, z.allocSize⟩ := by
  have whole : u64 (z.stackSize * 1) = z.stackSize := by
    rw [Nat.mul_one, u64_of_lt (Nat.lt_of_le_of_lt z.bound (by decide))]
  rw [allocStack, CompartmentMemory.array, if_neg (Nat.ne_of_gt z.pos), whole]
  rfl

theorem allocStack_eq_ok (run : allocStack z answer = .ok r) :
    answer = some r.data ∧ r.size = z.allocSize := by
  cases answer with
  | none =>
      rw [allocStack, CompartmentMemory.array, if_neg (Nat.ne_of_gt z.pos)] at run
      cases run
  | some base =>
      rw [allocStack_some] at run
      cases run
      exact ⟨rfl, rfl⟩

/-- The acquired stacks, the last one first, as the deque and the flag encode them. -/
def Encodes (z : StackSizes) (s : CompartmentStacks) (ranges : List Span) : Prop :=
  (ranges = [] ∧ s.rest = [] ∧ s.isInitialStackUsed = false) ∨
    (ranges = s.rest.reverse ++ [⟨s.front.data, z.stackSize⟩] ∧ s.isInitialStackUsed = true)

/-- What one call of `get_stack` does: it takes the initial stack or adds a new one. -/
inductive Takes (z : StackSizes) (answer : Option Nat) (s : CompartmentStacks)
    (ranges : List Span) (r : Span) (s' : CompartmentStacks) : Prop
  | initial (empty : ranges = []) (range : r = ⟨s.front.data, z.stackSize⟩)
      (next : s' = { s with
        isInitialStackUsed := true
        stackLimitLow := r.data
        stackLimitHigh := r.stop })
  | fresh (nested : ranges ≠ []) (base : answer = some r.data) (size : r.size = z.allocSize)
      (next : s' = { s with
        rest := s.rest ++ [r]
        stackLimitLow := r.data
        stackLimitHigh := r.stop })

theorem getStack_takes (encodes : Encodes z s ranges)
    (run : getStack z answer s = .ok (r, s')) : Takes z answer s ranges r s' := by
  obtain ⟨⟨r', u⟩, take, same⟩ := bind_eq_ok.mp run
  cases same
  rcases encodes with ⟨rfl, rest, unused⟩ | ⟨rfl, used⟩
  · rw [takeStack, if_pos (by simp [rest, unused])] at take
    cases take
    exact .initial rfl rfl rfl
  · rw [takeStack, if_neg (by simp [used])] at take
    obtain ⟨newStack, alloc, same⟩ := bind_eq_ok.mp take
    cases same
    obtain ⟨base, size⟩ := allocStack_eq_ok alloc
    exact .fresh (by simp) base size rfl

theorem Takes.encodes (take : Takes z answer s ranges r s') (encodes : Encodes z s ranges) :
    Encodes z s' (r :: ranges) := by
  cases take with
  | initial empty range next =>
      subst empty next
      rcases encodes with ⟨-, rest, -⟩ | ⟨no, -⟩
      · refine .inr ⟨?_, rfl⟩
        simp only [rest, range]
        rfl
      · simp at no
  | fresh nested base size next =>
      subst next
      rcases encodes with ⟨empty, -⟩ | ⟨rfl, used⟩
      · exact absurd empty nested
      · refine .inr ⟨?_, used⟩
        rw [List.reverse_append]
        rfl

/-- The last stack acquired is released, and destroyed unless it is the initial one. -/
theorem releaseStack_eq (encodes : Encodes z s (r :: ranges)) :
    releaseStack s = (if ranges = [] then none else some r,
      if ranges = [] then { s with isInitialStackUsed := false }
      else { s with rest := s.rest.dropLast }) := by
  rcases encodes with ⟨no, -⟩ | ⟨equal, -⟩
  · cases no
  · rw [releaseStack]
    rcases List.eq_nil_or_concat s.rest with rest | ⟨front, last, rest⟩
    · rw [rest] at equal
      cases equal
      simp [rest]
    · rw [rest, List.concat_eq_append, List.reverse_append] at equal
      have more : ranges ≠ [] := by
        rintro rfl
        simp at equal
      obtain ⟨rfl, -⟩ := List.cons.inj equal
      rw [rest, if_neg (by simp), if_neg more, if_neg more]
      simp

/-- Releasing leaves the initial stack, the limits and all other stacks alone. -/
theorem releaseStack_frame (s : CompartmentStacks) :
    (releaseStack s).2.front = s.front ∧ (releaseStack s).2.rest.Sublist s.rest ∧
      (releaseStack s).2.stackLimitLow = s.stackLimitLow ∧
      (releaseStack s).2.stackLimitHigh = s.stackLimitHigh := by
  rw [releaseStack]
  split
  next => exact ⟨rfl, .refl _, rfl, rfl⟩
  next => exact ⟨rfl, List.dropLast_sublist _, rfl, rfl⟩

theorem releaseStack_encodes (encodes : Encodes z s (r :: ranges)) :
    Encodes z (releaseStack s).2 ranges := by
  rw [releaseStack_eq encodes]
  rcases encodes with ⟨no, -⟩ | ⟨equal, used⟩
  · cases no
  · rcases List.eq_nil_or_concat s.rest with rest | ⟨front, last, rest⟩
    · rw [rest] at equal
      obtain ⟨-, rfl⟩ := List.cons.inj equal
      exact .inl ⟨rfl, rest, rfl⟩
    · rw [rest, List.concat_eq_append, List.reverse_append] at equal
      obtain ⟨-, rfl⟩ := List.cons.inj equal
      refine .inr ⟨?_, ?_⟩
      · simp [rest]
      · simp [used]

end CompartmentStacks

/-! ## Invocations -/

open CompartmentStacks

/-- An invocation that has not returned, with the number of its entry. -/
structure StackUse where
  number : Nat
  range : Span
  deriving DecidableEq, Repr

/-- A compartment with its active invocations, the innermost first. -/
structure StackUses where
  compartment : CompartmentStacks
  active : List StackUse
  entered : Nat
  running : Bool
  deriving DecidableEq, Repr

namespace StackUses

/-- An invocation is entered, leaves for a callback, is resumed after it, or returns. -/
inductive Event where
  | enter (answer : Option Nat)
  | callback
  | resume
  | leave
  deriving DecidableEq, Repr

section Definitions

variable (z : StackSizes)

/-- Calls of `get_stack` and `release_stack` are paired by `InvokeScopedStack`. -/
def next (s : StackUses) : Event → Option StackUses
  | .enter answer =>
    match getStack z answer s.compartment with
    | .ok (range, compartment) =>
      some ⟨compartment, ⟨s.entered + 1, range⟩ :: s.active, s.entered + 1, true⟩
    | .error _ => none
  | .callback => some { s with running := false }
  | .resume => if s.active = [] then none else some { s with running := true }
  | .leave =>
    match s.active with
    | [] => none
    | _ :: active =>
      some { s with
        compartment := (releaseStack s.compartment).2
        active := active
        running := false }

/-- What is assumed of the allocator: a new block is apart from the stacks that exist. -/
def Legal (s : StackUses) : Event → Prop
  | .enter (some base) =>
    ∀ stack ∈ s.compartment.front :: s.compartment.rest, Span.Disjoint ⟨base, z.allocSize⟩ stack
  | _ => True

instance (s : StackUses) : DecidablePred (Legal z s)
  | .enter (some _) => inferInstanceAs (Decidable (∀ _ ∈ _ :: _, _))
  | .enter none => .isTrue trivial
  | .callback => .isTrue trivial
  | .resume => .isTrue trivial
  | .leave => .isTrue trivial

abbrev Step := Within (Legal z) (next z)

/-- A compartment after its constructor, with the block of the initial stack. -/
def initial (base : Nat) : StackUses := ⟨⟨⟨base, z.allocSize⟩, [], false, 0, 0⟩, [], 0, false⟩

theorem construct_eq (base : Nat) :
    construct z (some base) = .ok (initial z base).compartment := by
  rw [construct, allocStack_some]
  rfl

end Definitions

variable {z : StackSizes} {s t : StackUses} {e : Event} {base : Nat} {events : List Event}

/-- Everything that one event can do. -/
theorem step_cases (step : Step z s e t) :
    (∃ answer r after, e = .enter answer ∧ getStack z answer s.compartment = .ok (r, after) ∧
      (∀ b, answer = some b → ∀ stack ∈ s.compartment.front :: s.compartment.rest,
        Span.Disjoint ⟨b, z.allocSize⟩ stack) ∧
      t = ⟨after, ⟨s.entered + 1, r⟩ :: s.active, s.entered + 1, true⟩) ∨
    (e = .callback ∧ t = { s with running := false }) ∨
    (e = .resume ∧ s.active ≠ [] ∧ t = { s with running := true }) ∨
    (∃ i active, e = .leave ∧ s.active = i :: active ∧
      t = { s with
        compartment := (releaseStack s.compartment).2
        active := active
        running := false }) := by
  obtain ⟨legal, next⟩ := step
  cases e with
  | enter answer =>
      simp only [StackUses.next] at next
      split at next
      next r after run =>
        cases next
        refine .inl ⟨answer, r, after, rfl, run, ?_, rfl⟩
        rintro b rfl
        exact legal
      next => cases next
  | callback =>
      cases next
      exact .inr (.inl ⟨rfl, rfl⟩)
  | resume =>
      simp only [StackUses.next] at next
      split at next
      next => cases next
      next nested =>
        cases next
        exact .inr (.inr (.inl ⟨rfl, nested, rfl⟩))
  | leave =>
      simp only [StackUses.next] at next
      split at next
      next => cases next
      next i active found =>
        cases next
        exact .inr (.inr (.inr ⟨i, active, rfl, found, rfl⟩))

/-- The acquired stacks, the innermost first. -/
def ranges (s : StackUses) : List Span := s.active.map StackUse.range

/-- The invariant: the encoding, blocks that are apart, and limits that belong to the invocation
entered last and to no other one. -/
structure Inv (z : StackSizes) (base : Nat) (s : StackUses) : Prop where
  encodes : Encodes z s.compartment s.ranges
  front : s.compartment.front = ⟨base, z.allocSize⟩
  sizes : ∀ stack ∈ s.compartment.rest, stack.size = z.allocSize
  apart : (s.compartment.front :: s.compartment.rest).Pairwise Span.Disjoint
  numbers : ∀ i ∈ s.active, i.number ≤ s.entered
  latest : ∀ i ∈ s.active, i.number = s.entered →
    s.compartment.stackLimitLow = i.range.data ∧ s.compartment.stackLimitHigh = i.range.stop
  other : ∀ i ∈ s.active, i.number < s.entered → s.compartment.stackLimitLow ≠ i.range.data

theorem Inv.initial : Inv z base (initial z base) where
  encodes := .inl ⟨rfl, rfl, rfl⟩
  front := rfl
  sizes := by simp [StackUses.initial]
  apart := by simp [StackUses.initial]
  numbers := by simp [StackUses.initial]
  latest := by simp [StackUses.initial]
  other := by simp [StackUses.initial]

/-- An acquired stack is in a block of its own. -/
theorem Inv.exists_block (inv : Inv z base s) {i : StackUse} (mem : i ∈ s.active) :
    ∃ stack ∈ s.compartment.front :: s.compartment.rest, stack.data = i.range.data ∧
      0 < stack.size := by
  have size : 0 < z.allocSize := Nat.lt_of_lt_of_le z.pos z.stackSize_le
  have mem : i.range ∈ s.ranges := List.mem_map_of_mem mem
  rcases inv.encodes with ⟨empty, -⟩ | ⟨equal, -⟩
  · rw [empty] at mem
    cases mem
  · rw [equal] at mem
    rcases List.mem_append.mp mem with mem | mem
    · have mem := List.mem_reverse.mp mem
      refine ⟨i.range, List.mem_cons_of_mem _ mem, rfl, ?_⟩
      rwa [inv.sizes _ mem]
    · refine ⟨s.compartment.front, List.mem_cons_self, ?_, ?_⟩
      · rw [List.mem_singleton.mp mem]
      · rwa [inv.front]

theorem Inv.enter {answer : Option Nat} {r : Span} {after : CompartmentStacks} (inv : Inv z base s)
    (take : Takes z answer s.compartment s.ranges r after)
    (legal : ∀ b, answer = some b → ∀ stack ∈ s.compartment.front :: s.compartment.rest,
      Span.Disjoint ⟨b, z.allocSize⟩ stack) :
    Inv z base ⟨after, ⟨s.entered + 1, r⟩ :: s.active, s.entered + 1, true⟩ := by
  have encodes := take.encodes inv.encodes
  have numbers : ∀ i ∈ (⟨s.entered + 1, r⟩ : StackUse) :: s.active, i.number ≤ s.entered + 1 :=
    List.forall_mem_cons.mpr ⟨Nat.le_refl _, fun i mem => Nat.le_succ_of_le (inv.numbers i mem)⟩
  have notLatest : ∀ i ∈ s.active, i.number ≠ s.entered + 1 := fun i mem =>
    Nat.ne_of_lt (Nat.lt_succ_of_le (inv.numbers i mem))
  cases take with
  | initial empty range next =>
      have none : s.active = [] := List.map_eq_nil_iff.mp empty
      subst next
      refine ⟨encodes, inv.front, inv.sizes, inv.apart, numbers, ?_, ?_⟩
      · simp [none]
      · simp [none]
  | fresh nested found size next =>
      subst next
      have apart := legal _ found
      have block : (⟨r.data, z.allocSize⟩ : Span) = r := by rw [← size]
      rw [block] at apart
      refine ⟨encodes, inv.front, ?_, ?_, numbers, ?_, ?_⟩
      · intro stack mem
        rcases List.mem_append.mp mem with mem | mem
        · exact inv.sizes stack mem
        · rw [List.mem_singleton.mp mem, size]
      · refine List.pairwise_append.mpr ⟨inv.apart, List.pairwise_singleton .., ?_⟩
        intro stack mem stack' mem'
        rw [List.mem_singleton.mp mem']
        exact (apart stack mem).symm
      · rw [List.forall_mem_cons]
        exact ⟨fun _ => ⟨rfl, rfl⟩, fun i mem same => absurd same (notLatest i mem)⟩
      · rw [List.forall_mem_cons]
        refine ⟨fun less => absurd less (Nat.lt_irrefl _), fun i mem _ => ?_⟩
        obtain ⟨stack, live, start, pos⟩ := inv.exists_block mem
        rw [← start]
        refine (apart stack live).data_ne ?_ pos
        rw [size]
        exact Nat.lt_of_lt_of_le z.pos z.stackSize_le

theorem Inv.leave {i : StackUse} {active : List StackUse} (inv : Inv z base s)
    (found : s.active = i :: active) :
    Inv z base { s with
      compartment := (releaseStack s.compartment).2, active := active, running := false } := by
  obtain ⟨front, rest, low, high⟩ := releaseStack_frame s.compartment
  have encodes := inv.encodes
  rw [ranges, found] at encodes
  have sub : ∀ j ∈ active, j ∈ s.active := fun j mem => found ▸ List.mem_cons_of_mem _ mem
  refine ⟨releaseStack_encodes encodes, front.trans inv.front,
    fun stack mem => inv.sizes stack (rest.subset mem), ?_, fun j mem => inv.numbers j (sub j mem),
    ?_, ?_⟩
  · rw [front]
    exact inv.apart.sublist (rest.cons_cons _)
  · intro j mem latest
    rw [low, high]
    exact inv.latest j (sub j mem) latest
  · intro j mem less
    rw [low]
    exact inv.other j (sub j mem) less

theorem Inv.step (inv : Inv z base s) (step : Step z s e t) : Inv z base t := by
  rcases step_cases step with ⟨answer, r, after, -, get, legal, rfl⟩ | ⟨-, rfl⟩ | ⟨-, -, rfl⟩ |
    ⟨i, active, -, found, rfl⟩
  · exact inv.enter (getStack_takes inv.encodes get) legal
  · exact { inv with }
  · exact { inv with }
  · exact inv.leave found

theorem inv_of_run (run : Run (Step z) (initial z base) events t) : Inv z base t :=
  run.invariant (Inv z base) (fun _ _ _ inv => inv.step) .initial

/-! ## The order of the stacks -/

/-- The acquired stacks are apart; a release gives up the last one acquired and no memory of
another one or of the initial one; and if all have been released, the initial stack is next. -/
structure Lifo (z : StackSizes) (base : Nat) (s : StackUses) : Prop where
  disjoint : s.ranges.Pairwise Span.Disjoint
  release : ∀ i active, s.active = i :: active →
    Encodes z (releaseStack s.compartment).2 (active.map StackUse.range) ∧
      (releaseStack s.compartment).1 = if active = [] then none else some i.range
  keeps : ∀ gone, (releaseStack s.compartment).1 = some gone →
    gone.Disjoint s.compartment.front
  balanced : s.active = [] → s.compartment.front = ⟨base, z.allocSize⟩ ∧
    s.compartment.rest = [] ∧ s.compartment.isInitialStackUsed = false ∧
    ∀ answer, ∃ after, getStack z answer s.compartment = .ok (⟨base, z.stackSize⟩, after)

theorem Inv.disjoint (inv : Inv z base s) : s.ranges.Pairwise Span.Disjoint := by
  obtain ⟨front, rest⟩ := List.pairwise_cons.mp inv.apart
  rcases inv.encodes with ⟨empty, -⟩ | ⟨equal, -⟩
  · rw [empty]
    exact .nil
  · rw [equal]
    refine List.pairwise_append.mpr ⟨?_, List.pairwise_singleton .., ?_⟩
    · exact List.pairwise_reverse.mpr (rest.imp Span.Disjoint.symm)
    · intro stack mem initial mem'
      rw [List.mem_singleton.mp mem']
      have inside : Span.stop ⟨s.compartment.front.data, z.stackSize⟩ ≤
          s.compartment.front.stop := by
        rw [inv.front]
        exact Nat.add_le_add_left z.stackSize_le _
      have apart := front stack (List.mem_reverse.mp mem)
      exact (apart.subspan (c := ⟨s.compartment.front.data, z.stackSize⟩) (Nat.le_refl _)
        inside).symm

theorem Inv.lifo (inv : Inv z base s) : Lifo z base s where
  disjoint := inv.disjoint
  release := by
    intro i active found
    have encodes := inv.encodes
    rw [ranges, found, List.map_cons] at encodes
    refine ⟨releaseStack_encodes encodes, ?_⟩
    rw [releaseStack_eq encodes]
    simp only [List.map_eq_nil_iff]
  keeps := by
    intro gone released
    rw [releaseStack] at released
    split at released
    next => cases released
    next =>
      have mem := List.mem_of_getLast? released
      exact ((List.pairwise_cons.mp inv.apart).1 gone mem).symm
  balanced := by
    intro none
    rcases inv.encodes with ⟨-, rest, unused⟩ | ⟨equal, -⟩
    · refine ⟨inv.front, rest, unused, fun answer => ?_⟩
      rw [getStack, takeStack, if_pos (by simp [rest, unused]), inv.front]
      exact ⟨_, rfl⟩
    · rw [ranges, none] at equal
      simp at equal

/-- Stacks follow a strict order, in every run. -/
theorem invocation_stacks_lifo (run : Run (Step z) (initial z base) events t) : Lifo z base t :=
  (inv_of_run run).lifo

def sampleSizes : StackSizes := ⟨0x3000, CompartmentMemory.sampleRounding, by decide, by decide⟩

/-- An invocation with two callbacks that each make another one. -/
def nestedTwice : List Event :=
  [.enter none, .callback, .enter (some 0x20000), .leave, .enter (some 0x30000), .leave, .resume,
    .leave]

theorem invocation_stacks_lifo_nested :
    ∃ t, Run (Step sampleSizes) (initial sampleSizes 0x10000) nestedTwice t ∧
      t.entered = 3 ∧ t.active = [] ∧ Lifo sampleSizes 0x10000 t := by
  have done : (simulate (Legal sampleSizes) (next sampleSizes) nestedTwice
      (initial sampleSizes 0x10000)).map (fun t => (t.entered, t.active)) = some (3, []) := by
    decide +kernel
  obtain ⟨t, simulated, facts⟩ := Option.map_eq_some_iff.mp done
  obtain ⟨entered, active⟩ := Prod.mk.inj facts
  have run := simulate_run simulated
  exact ⟨t, run, entered, active, invocation_stacks_lifo run⟩

/-! ## The limits of the running stack -/

/-- While code of the compartment runs, the limits are those of the stack of its invocation. -/
def Describes (s : StackUses) : Prop :=
  s.running = true → ∀ i ∈ s.active.head?,
    s.compartment.stackLimitLow = i.range.data ∧ s.compartment.stackLimitHigh = i.range.stop

/-- The innermost invocation is the one that was entered last. -/
def EnteredLast (s : StackUses) : Prop := ∀ i ∈ s.active.head?, i.number = s.entered

theorem Inv.limits_iff (inv : Inv z base s) :
    (∀ i ∈ s.active.head?, s.compartment.stackLimitLow = i.range.data ∧
      s.compartment.stackLimitHigh = i.range.stop) ↔ s.EnteredLast := by
  constructor
  · intro limits i head
    have mem := List.mem_of_mem_head? head
    by_contra less
    exact inv.other i mem (Nat.lt_of_le_of_ne (inv.numbers i mem) less) (limits i head).1
  · intro latest i head
    exact inv.latest i (List.mem_of_mem_head? head) (latest i head)

/-- Only a resumption can make the limits wrong for code that runs. -/
theorem Inv.describes_of_step (inv : Inv z base s) (step : Step z s e t)
    (resumes : e = .resume → s.EnteredLast) : t.Describes := by
  have after := inv.step step
  rcases step_cases step with ⟨answer, r, next, -, -, -, rfl⟩ | ⟨-, rfl⟩ | ⟨same, -, rfl⟩ |
    ⟨i, active, -, -, rfl⟩
  · refine fun _ => after.limits_iff.mpr ?_
    rintro i ⟨⟩
    rfl
  · exact fun running => Bool.noConfusion running
  · exact fun _ => after.limits_iff.mpr (resumes same)
  · exact fun running => Bool.noConfusion running

/-- The limits are right in all states of a run exactly if it resumes no invocation but the one
that was entered last. -/
theorem tcb_describes_running_stack_iff (run : Run (Step z) (initial z base) events t) :
    (∀ pre post u, events = pre ++ post → Run (Step z) (initial z base) pre u → u.Describes) ↔
      ∀ pre post u, events = pre ++ .resume :: post → Run (Step z) (initial z base) pre u →
        u.EnteredLast := by
  constructor
  · intro describes pre post u split before
    rw [split] at run
    obtain ⟨u', before', rest⟩ := run.of_append
    cases before'.unique before
    cases rest with
    | @cons _ v _ _ _ resume _ =>
        have right := describes (pre ++ [.resume]) post v (by rw [split, List.append_assoc]; rfl)
          (before.append (Run.single.mpr resume))
        rcases step_cases resume with ⟨_, _, _, no, -⟩ | ⟨no, -⟩ | ⟨-, -, rfl⟩ | ⟨_, _, no, -⟩
        · cases no
        · cases no
        · exact (inv_of_run before).limits_iff.mp (right rfl)
        · cases no
  · intro latest pre post u split before
    rcases List.eq_nil_or_concat pre with rfl | ⟨front, e, rfl⟩
    · cases before
      exact fun running => Bool.noConfusion running
    · rw [List.concat_eq_append] at split before
      obtain ⟨v, first, last⟩ := before.of_append
      refine (inv_of_run first).describes_of_step (Run.single.mp last) ?_
      rintro rfl
      exact latest front post v (by rw [split, List.append_assoc]; rfl) first

/-- Invocations one after the other, the first with a callback that makes none. -/
def callbackOnly : List Event := [.enter none, .callback, .resume, .leave, .enter none]

theorem tcb_describes_running_stack_unnested :
    ∃ t, Run (Step sampleSizes) (initial sampleSizes 0x10000) callbackOnly t ∧
      ∀ pre post u, callbackOnly = pre ++ post →
        Run (Step sampleSizes) (initial sampleSizes 0x10000) pre u → u.Describes := by
  have done : (simulate (Legal sampleSizes) (next sampleSizes) callbackOnly
      (initial sampleSizes 0x10000)).map running = some true := by
    decide +kernel
  have left : simulate (Legal sampleSizes) (next sampleSizes) [.enter none, .callback]
      (initial sampleSizes 0x10000) =
      some ⟨⟨⟨0x10000, 0x4000⟩, [], true, 0x10000, 0x13000⟩, [⟨1, 0x10000, 0x3000⟩], 1, false⟩ := by
    decide +kernel
  obtain ⟨t, simulated, -⟩ := Option.map_eq_some_iff.mp done
  have run := simulate_run simulated
  refine ⟨t, run, (tcb_describes_running_stack_iff run).mpr ?_⟩
  intro pre post u split before
  have first : pre = [.enter none, .callback] := by
    rcases pre with _ | ⟨p, _ | ⟨q, _ | ⟨r, _ | ⟨w, _ | ⟨v, pre⟩⟩⟩⟩⟩ <;> simp_all [callbackOnly]
  subst first
  cases before.unique (simulate_run left)
  rintro i ⟨⟩
  rfl

/-- After an inner invocation, the limits of its stack stay in place for the outer one. -/
theorem tcb_describes_released_stack :
    ∃ t, Run (Step sampleSizes) (initial sampleSizes 0x10000)
      [.enter none, .callback, .enter (some 0x20000), .leave, .resume] t ∧
      t.running = true ∧ t.active = [⟨1, 0x10000, 0x3000⟩] ∧
      t.compartment.stackLimitLow = 0x20000 ∧ t.compartment.stackLimitHigh = 0x24000 ∧
      ¬ t.Describes := by
  have done : (simulate (Legal sampleSizes) (next sampleSizes)
      [.enter none, .callback, .enter (some 0x20000), .leave, .resume]
      (initial sampleSizes 0x10000)) =
      some ⟨⟨⟨0x10000, 0x4000⟩, [], true, 0x20000, 0x24000⟩, [⟨1, 0x10000, 0x3000⟩], 2, true⟩ := by
    decide +kernel
  refine ⟨_, simulate_run done, rfl, rfl, rfl, rfl, ?_⟩
  intro describes
  have low := (describes rfl ⟨1, 0x10000, 0x3000⟩ rfl).1
  exact absurd low (by decide)

end StackUses

end Monza
