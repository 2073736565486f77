import Monza.Ownership.Checked
import Monza.Pagetable.Setup
import Monza.Lib.Transition

/-!
# Compartments, their memory ranges and their page faults

The state consists of all page tables, the ownership pagemap, the page table root
of every compartment and the blocks the parent range has handed out. Compartments
are named by their owner. The operations are those of `MonzaRange`, the creation of
a compartment and the page fault handler; each runs to completion or ends the whole
system.

The parent range is third-party code. Its answer to an allocation is part of the
event, and `Event.Legal` says what is assumed of it.
-/

namespace Monza

open Outcome

/-- Build and boot configuration, as the setup of the kernel leaves it. The kernel initialiser has
checked the alignment of both maps; image and heap lie where a four-level identity mapping reaches.
A range of the heap may lie below the image, where a compartment table has pages without access. -/
structure Platform where
  ps : PageSize
  minChunkBits : Nat
  allocator : NodeAllocator
  layout : ImageLayout
  interruptStacks : AddressRange
  heap : HeapRanges
  kernelPagetable : Nat
  fits : ∀ e ∈ predefinedMap ps layout ++ [⟨interruptStacks, .forceKernelWrite⟩], e.Fits ps
  heapBelow : heap.Below (2 ^ 48)

namespace Platform

/-- `MIN_OWNERSHIP_SIZE`. -/
def unit (P : Platform) : Nat := minOwnershipSize P.ps P.minChunkBits

/-- All interrupt stacks are one entry, as `setup_gdt` installs it. -/
def interruptStackMap (P : Platform) : List MapEntry := [⟨P.interruptStacks, .forceKernelWrite⟩]

/-- The end of the last page of the image. -/
def imageEnd (P : Platform) : Nat :=
  ((AddressRange.ofBounds P.layout.elfWritableStart P.layout.heapStart).alignUpEnd P.ps.bytes).stop

/-- The calls that build a compartment table. -/
def creationCalls (P : Platform) : List TableCall :=
  (predefinedMap P.ps P.layout ++ P.interruptStackMap).map MapEntry.call

end Platform

structure System where
  tables : PagetableStore
  ownership : OwnershipMap
  roots : CompartmentOwner → Option Nat
  handedOut : Nat → Bool

namespace System

variable (P : Platform)

/-- The root stored in a range, null for a range that has none. -/
def rootOf (s : System) (owner : CompartmentOwner) : Nat := (s.roots owner).getD 0

/-- Record that the blocks of a range are with the parent or handed out. -/
def setHandedOut (s : System) (base size : Nat) (value : Bool) : System :=
  { s with handedOut := fun b =>
      if base ≤ b * P.unit ∧ b * P.unit < base + size then value else s.handedOut b }

/-- The constructor of a compartment: its page table, and a range with its owner. -/
def createCompartment (owner : CompartmentOwner) (s : System) : Result System := do
  let (root, tables) ← createCompartmentPagetable P.ps P.allocator
    (predefinedMap P.ps P.layout) P.interruptStackMap s.tables
  .ok { s with
    tables := tables
    roots := Function.update s.roots owner (some root)
    ownership := s.ownership.newHead owner }

/-- `List::Head::forall`, which reads the successor before it runs the body. Walking
onto a foreign head or a null link would be undefined. -/
def forallEntries {σ : Type} (ownership : σ → OwnershipMap) (owner : CompartmentOwner)
    (f : Nat → σ → Result σ) : Nat → Option ListLink → σ → Result σ
  | 0, _, _ => .error .diverge
  | _ + 1, none, _ => .error .kabort
  | _ + 1, some (.head r), s => if r = owner then .ok s else .error .kabort
  | fuel + 1, some (.entry b), s => do
    let n := ((ownership s).entries b).next
    let s ← f b s
    forallEntries ownership owner f fuel n s

end System

/-- What `set_owner` stores in a `MonzaRange`. -/
structure MonzaRange where
  owner : CompartmentOwner := .null
  compartmentPagetableRoot : Nat := 0
  deriving DecidableEq, Repr

namespace MonzaRange

variable (P : Platform) (build : Build) (r : MonzaRange) (head : CompartmentOwner)

/-- `alloc_range`, given the answer of the parent. The list of the range is that of `head`. -/
def allocRange (size : Nat) (range : Option Nat) (s : System) : Result System := do
  OwnershipMap.assertUnits build P.unit size
  match range with
  | none => .ok s
  | some range =>
    let s := s.setHandedOut P range size true
    if r.owner ≠ .null then do
      let ownership ← s.ownership.addMonzaOwnerIn build P.unit range size r.owner (some head)
      let tables ← addToCompartmentPagetable P.ps P.allocator r.compartmentPagetableRoot range size
        .compartmentWrite s.tables
      .ok { s with ownership := ownership, tables := tables }
    else .ok s

/-- What `dealloc_range` does before it calls its parent. -/
def disown (base size : Nat) (s : System) : Result System :=
  if r.owner ≠ .null then do
    let tables ← removeFromCompartmentPagetable P.ps P.kernelPagetable r.compartmentPagetableRoot
      base size s.tables
    let ownership ← s.ownership.removeMonzaOwnerIn build P.unit base size r.owner
    .ok { s with ownership := ownership, tables := tables }
  else .ok s

def deallocRange (base size : Nat) (s : System) : Result System := do
  OwnershipMap.assertUnits build P.unit size
  let s ← r.disown P build base size s
  .ok (s.setHandedOut P base size false)

/-- The body of `dealloc_all`. Resetting the allocator's own pagemap is left out. -/
def reclaimBlock (b : Nat) (s : System) : Result System := do
  let s ← r.deallocRange P build (b * P.unit) P.unit s
  .ok { s with ownership := s.ownership.setOwner b .null }

def deallocAll (s : System) : Result System :=
  let s := { s with ownership := s.ownership.lazyInit head }
  System.forallEntries System.ownership head (r.reclaimBlock P build) OwnershipMap.blockLoopBudget
    (s.ownership.heads head).next s

variable {P r head}

/-- Without assertions, an allocation for a compartment. -/
theorem allocRange_release {size range : Nat} {s : System} (known : r.owner ≠ .null) :
    r.allocRange P .release head size (some range) s =
      (s.ownership.addMonzaOwner P.unit range size r.owner (some head) >>= fun ownership =>
        addToCompartmentPagetable P.ps P.allocator r.compartmentPagetableRoot range size
          .compartmentWrite s.tables >>= fun tables =>
        .ok { s.setHandedOut P range size true with
          ownership := ownership, tables := tables }) := by
  rw [allocRange, OwnershipMap.assertUnits_release, ok_bind]
  simp only [if_pos known, OwnershipMap.addMonzaOwnerIn_release]
  rfl

theorem disown_release (known : r.owner ≠ .null) {base size : Nat} {s : System} :
    r.disown P .release base size s =
      (removeFromCompartmentPagetable P.ps P.kernelPagetable r.compartmentPagetableRoot base size
        s.tables >>= fun tables =>
        s.ownership.removeMonzaOwner P.unit base size r.owner >>= fun ownership =>
        .ok { s with ownership := ownership, tables := tables }) := by
  rw [disown, if_pos known]
  simp only [OwnershipMap.removeMonzaOwnerIn_release]

/-- Without assertions, a deallocation by a compartment. -/
theorem deallocRange_release {base size : Nat} {s : System} (known : r.owner ≠ .null) :
    r.deallocRange P .release base size s =
      (removeFromCompartmentPagetable P.ps P.kernelPagetable r.compartmentPagetableRoot base size
        s.tables >>= fun tables =>
        s.ownership.removeMonzaOwner P.unit base size r.owner >>= fun ownership =>
        .ok ({ s with ownership := ownership, tables := tables }.setHandedOut P base size
          false)) := by
  simp only [deallocRange, OwnershipMap.assertUnits_release, ok_bind, disown_release known,
    bind_assoc]

theorem deallocRange_of_null {base size : Nat} {s : System} (null : r.owner = .null) :
    r.deallocRange P .release base size s = .ok (s.setHandedOut P base size false) := by
  rw [deallocRange, OwnershipMap.assertUnits_release, ok_bind, disown, if_neg (not_not.mpr null),
    ok_bind]

end MonzaRange

namespace System

variable (P : Platform)

/-- The range of an owner. Where every owner has one range, ranges are known by their owner. -/
def range (s : System) (owner : CompartmentOwner) : MonzaRange := ⟨owner, s.rootOf owner⟩

/-- `MonzaRange::alloc_range`. -/
def allocRange (owner : CompartmentOwner) (size : Nat) (range : Option Nat) (s : System) :
    Result System :=
  (s.range owner).allocRange P .release owner size range s

/-- `MonzaRange::dealloc_range`. -/
def deallocRange (owner : CompartmentOwner) (base size : Nat) (s : System) : Result System :=
  (s.range owner).deallocRange P .release base size s

/-- `MonzaRange::dealloc_all`. -/
def deallocAll (owner : CompartmentOwner) (s : System) : Result System :=
  (s.range owner).deallocAll P .release owner s

/-- Stacks are mapped in advance, so no address is delegated. -/
def isActiveStack (_ : Nat) : Bool := false

/-- `page_fault_handler`, for the compartment running on the core, with the error code
of the trap frame. -/
def pageFaultHandler (compartment : CompartmentOwner) (address pagetableRoot : Nat)
    (err : BitVec 64) (s : System) : Result System :=
  let isKernel := err &&& 0x4#64 == 0#64
  let isWrite := err &&& 0x2#64 != 0#64
  if isKernel then .error .kabort
  else if !P.heap.isHeapAddress address then .error .kabort
  else
    let owner := OwnershipMap.getMonzaOwner P.unit s.ownership address
    if owner = compartment then
      if isActiveStack address then .ok s
      else do
        let tables ← addToCompartmentPagetable P.ps P.allocator pagetableRoot
          (alignDown address P.ps.bytes) P.ps.bytes .compartmentWrite s.tables
        .ok { s with tables := tables }
    else if !isWrite ∧ owner = .null then do
      let tables ← addToCompartmentPagetable P.ps P.allocator pagetableRoot
        (alignDown address P.ps.bytes) P.ps.bytes .compartmentRead s.tables
      .ok { s with tables := tables }
    else .error .kabort

/-- What the handler decides before it turns to the table: the permission that the page
gets, or to abort. -/
def faultPermission (compartment : CompartmentOwner) (address : Nat) (err : BitVec 64)
    (ownership : OwnershipMap) : Result PagetablePermission :=
  let owner := OwnershipMap.getMonzaOwner P.unit ownership address
  if err &&& 0x4#64 == 0#64 then .error .kabort
  else if !P.heap.isHeapAddress address then .error .kabort
  else if owner = compartment then .ok .compartmentWrite
  else if !(err &&& 0x2#64 != 0#64) ∧ owner = .null then .ok .compartmentRead
  else .error .kabort

/-- The handler is this decision, followed by the call that maps the page. -/
theorem pageFaultHandler_eq {compartment : CompartmentOwner} {address root : Nat}
    {err : BitVec 64} {s : System} : s.pageFaultHandler P compartment address root err =
      (faultPermission P compartment address err s.ownership >>= fun perm =>
        addToCompartmentPagetable P.ps P.allocator root (alignDown address P.ps.bytes) P.ps.bytes
          perm s.tables >>= fun tables => .ok { s with tables := tables }) := by
  rw [pageFaultHandler, faultPermission]
  simp only [isActiveStack, Bool.false_eq_true, if_false]
  split
  next => rfl
  next =>
    split
    next => rfl
    next =>
      split
      next => rfl
      next => split <;> rfl

variable {P} {compartment : CompartmentOwner} {address : Nat} {err : BitVec 64}
variable {ownership : OwnershipMap}

theorem pageFaultHandler_cases {root : Nat} {s t : System}
    (done : s.pageFaultHandler P compartment address root err = .ok t) : ∃ perm tables,
      faultPermission P compartment address err s.ownership = .ok perm ∧
      addToCompartmentPagetable P.ps P.allocator root (alignDown address P.ps.bytes) P.ps.bytes
        perm s.tables = .ok tables ∧ { s with tables := tables } = t := by
  rw [pageFaultHandler_eq] at done
  obtain ⟨perm, decided, done⟩ := bind_eq_ok.mp done
  obtain ⟨tables, mapped, done⟩ := bind_eq_ok.mp done
  exact ⟨perm, tables, decided, mapped, Except.ok.inj done⟩

theorem faultPermission_eq_ok {perm : PagetablePermission} :
    faultPermission P compartment address err ownership = .ok perm ↔
      err &&& 0x4#64 ≠ 0#64 ∧ P.heap.isHeapAddress address = true ∧
      (OwnershipMap.getMonzaOwner P.unit ownership address = compartment ∧
          perm = .compartmentWrite ∨
        OwnershipMap.getMonzaOwner P.unit ownership address ≠ compartment ∧
          (err &&& 0x2#64 = 0#64 ∧ OwnershipMap.getMonzaOwner P.unit ownership address = .null) ∧
          perm = .compartmentRead) := by
  rw [faultPermission, guard_eq_ok, guard_eq_ok, beq_iff_eq, Bool.not_eq_true', Bool.not_eq_false]
  refine and_congr_right' (and_congr_right' ?_)
  by_cases own : OwnershipMap.getMonzaOwner P.unit ownership address = compartment
  · rw [if_pos own, Except.ok.injEq]
    simp only [own, true_and, not_true_eq_false, ne_eq, false_and, or_false, eq_comm]
  · rw [if_neg own]
    by_cases read : err &&& 0x2#64 = 0#64 ∧
        OwnershipMap.getMonzaOwner P.unit ownership address = .null
    · rw [if_pos (by simpa using read), Except.ok.injEq]
      constructor
      · rintro rfl
        exact .inr ⟨own, read, rfl⟩
      · rintro (⟨own', -⟩ | ⟨-, -, rfl⟩)
        · exact absurd own' own
        · rfl
    · rw [if_neg (by simpa using read)]
      simp only [own, read, false_and, and_false, or_false, reduceCtorEq]

/-- The only other decision is to abort. -/
theorem faultPermission_eq_error {fault : Fault}
    (decided : faultPermission P compartment address err ownership = .error fault) :
    fault = .kabort := by
  have outcome : Sat (faultPermission P compartment address err ownership) (fun _ => True)
      (· = .kabort) := by
    rw [faultPermission]
    refine Sat.guard rfl fun _ => Sat.guard rfl fun _ => ?_
    split
    next => trivial
    next => split <;> trivial
  rw [decided] at outcome
  exact outcome

end System

/-- What happens to the system. A page fault runs on the table of the compartment
that caused it. -/
inductive Event where
  | create (owner : CompartmentOwner)
  | alloc (owner : CompartmentOwner) (size : Nat) (range : Option Nat)
  | dealloc (owner : CompartmentOwner) (base size : Nat)
  | deallocAll (owner : CompartmentOwner)
  | pageFault (owner : CompartmentOwner) (address : Nat) (err : BitVec 64)
  deriving DecidableEq, Repr

namespace Event

def run (P : Platform) : Event → System → Result System
  | create owner, s => s.createCompartment P owner
  | alloc owner size range, s => s.allocRange P owner size range
  | dealloc owner base size, s => s.deallocRange P owner base size
  | deallocAll owner, s => s.deallocAll P owner
  | pageFault owner address err, s => s.pageFaultHandler P owner address (s.rootOf owner) err

/-- Whole ownership units that the tables can map. -/
structure Units (P : Platform) (base size : Nat) : Prop where
  aligned : base % P.unit = 0
  alignedSize : size % P.unit = 0
  bound : base + size ≤ 2 ^ 48

instance (P : Platform) (base size : Nat) : Decidable (Units P base size) :=
  decidable_of_iff (base % P.unit = 0 ∧ size % P.unit = 0 ∧ base + size ≤ 2 ^ 48)
    ⟨fun ⟨h₁, h₂, h₃⟩ => ⟨h₁, h₂, h₃⟩, fun ⟨h₁, h₂, h₃⟩ => ⟨h₁, h₂, h₃⟩⟩

/-- The parent hands out units of the heap that are not handed out already. The image is
not memory of the parent, and the interrupt stacks were allocated before the ranges existed and
are never returned. -/
structure Fresh (P : Platform) (s : System) (base size : Nat) : Prop extends
    Units P base size where
  free : ∀ b, base / P.unit ≤ b → b < (base + size) / P.unit → s.handedOut b = false
  heap : P.heap.isHeapAddress base = true
  image : base + size ≤ P.layout.elfStart ∨ P.imageEnd ≤ base
  apart : base + size ≤ P.interruptStacks.start ∨ P.interruptStacks.stop ≤ base

instance (P : Platform) (s : System) (base size : Nat) : Decidable (Fresh P s base size) :=
  decidable_of_iff (Units P base size ∧
      (∀ b, base / P.unit ≤ b → b < (base + size) / P.unit → s.handedOut b = false) ∧
      P.heap.isHeapAddress base = true ∧
      (base + size ≤ P.layout.elfStart ∨ P.imageEnd ≤ base) ∧
      (base + size ≤ P.interruptStacks.start ∨ P.interruptStacks.stop ≤ base))
    ⟨fun ⟨h₁, h₂, h₃, h₄, h₅⟩ => ⟨h₁, h₂, h₃, h₄, h₅⟩,
      fun ⟨h₁, h₂, h₃, h₄, h₅⟩ => ⟨h₁, h₂, h₃, h₄, h₅⟩⟩

/-- What the environment promises. Owners of compartments are distinct and not null;
only existing compartments fault or use their ranges. -/
def Legal (P : Platform) (s : System) : Event → Prop
  | create owner => owner ≠ .null ∧ s.roots owner = none
  | alloc _ _ none => True
  | alloc owner size (some base) =>
      (owner = .null ∨ s.roots owner ≠ none) ∧ Fresh P s base size
  | dealloc owner base size => (owner = .null ∨ s.roots owner ≠ none) ∧ Units P base size
  | deallocAll owner => s.roots owner ≠ none
  | pageFault owner _ _ => s.roots owner ≠ none

instance (P : Platform) (s : System) : DecidablePred (Legal P s)
  | create owner => inferInstanceAs (Decidable (owner ≠ .null ∧ s.roots owner = none))
  | alloc _ _ none => inferInstanceAs (Decidable True)
  | alloc owner size (some base) =>
      inferInstanceAs (Decidable ((owner = .null ∨ s.roots owner ≠ none) ∧ Fresh P s base size))
  | dealloc owner base size =>
      inferInstanceAs (Decidable ((owner = .null ∨ s.roots owner ≠ none) ∧ Units P base size))
  | deallocAll owner => inferInstanceAs (Decidable (s.roots owner ≠ none))
  | pageFault owner _ _ => inferInstanceAs (Decidable (s.roots owner ≠ none))

/-- One completed event. -/
def Step (P : Platform) (s : System) (e : Event) (t : System) : Prop :=
  e.Legal P s ∧ e.run P s = .ok t

/-- Run events as long as they are legal and complete. -/
def simulate (P : Platform) : List Event → System → Option System :=
  Transition.simulate (Legal P) fun s e => (e.run P s).toOption

theorem step_of_within {P : Platform} {e : Event} {s t : System}
    (h : Transition.Within (Legal P) (fun s e => (e.run P s).toOption) s e t) : e.Step P s t :=
  ⟨h.1, toOption_eq_some.mp h.2⟩

theorem simulate_cons {P : Platform} {e : Event} {es : List Event} {s t : System}
    (h : simulate P (e :: es) s = some t) : ∃ u, e.Step P s u ∧ simulate P es u = some t := by
  obtain ⟨u, step, rest⟩ := Transition.simulate_cons h
  exact ⟨u, step_of_within step, rest⟩

theorem simulate_run {P : Platform} {es : List Event} {s t : System}
    (h : simulate P es s = some t) : Transition.Run (Step P) s es t :=
  (Transition.simulate_run h).mono fun _ _ _ => step_of_within

end Event

/-- Before the first compartment: nothing is owned. The tables of the kernel are in
use and the allocator may have handed out memory to the kernel. -/
structure System.Initial (s : System) : Prop where
  roots : ∀ o, s.roots o = none
  ownership : s.ownership = .empty

end Monza
