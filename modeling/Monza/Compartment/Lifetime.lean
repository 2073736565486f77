import Monza.Compartment.Isolation

/-!
# Lifetimes of compartments and their memory

A compartment shares its `LocalState` with the `CompartmentMemory` objects made from it.
These may outlive the compartment. The last of them destroys the `LocalState`, which
takes all memory back. The owner in the pagemap is the address of the compartment.

Here compartments are numbered in the order of their construction. Two of them may have
had one address, so that a range is known by the number of its compartment and no longer
by its owner; lists of blocks are named in the same way. The caches between `LocalState`
and `MonzaRange` are third-party code: any of their calls may come at any time.
-/

namespace Monza

open Outcome Transition

namespace MonzaRange

/-- The error is meant for an owner without a table, but asks about the previous owner. -/
def setOwner (r : MonzaRange) (newOwner : CompartmentOwner) (root : Nat) : Result MonzaRange :=
  if root = 0 ∧ r.owner ≠ .null then .error .kabort else .ok ⟨newOwner, root⟩

/-- The destructor. -/
def destroy (P : Platform) (r : MonzaRange) (head : CompartmentOwner) (s : System) :
    Result System := do
  let s ← r.deallocAll P .release head s
  if r.owner ≠ .null then
    .ok { s with
      tables := deallocateCompartmentPagetable P.ps r.compartmentPagetableRoot s.tables }
  else .ok s

end MonzaRange

/-- A compartment, from its construction on. Its own pieces of memory come and go with it;
`handles` counts the `CompartmentMemory` objects elsewhere. -/
structure Instance where
  address : Nat := 0
  alive : Bool := false
  localState : Option MonzaRange := none
  handles : Nat := 0

def Instance.getOwner (i : Instance) : CompartmentOwner := ⟨i.address⟩

/-- A page that the fault handler mapped since it found the owner to be the compartment. -/
structure Grant where
  grantee : Nat
  block : Nat
  source : Option Nat

/-- `source` records the compartment whose range the block was last allocated through. -/
structure Lifetimes where
  memory : System
  count : Nat
  instances : Nat → Instance
  source : Nat → Option Nat
  granted : List Grant

namespace Lifetimes

variable (P : Platform) (s : Lifetimes)

/-- The list head in the range of a compartment. -/
def listHead (n : Nat) : CompartmentOwner := ⟨n⟩

def set (n : Nat) (i : Instance) : Lifetimes :=
  { s with instances := Function.update s.instances n i }

/-- The owner of a block. -/
def owner (b : Nat) : CompartmentOwner := (s.memory.ownership.entries b).owner

/-- `ArchitecturalCompartmentBase`, up to the first allocation. -/
def construct (address : Nat) : Result Lifetimes := do
  let (pagetable, tables) ← createCompartmentPagetable P.ps P.allocator
    (predefinedMap P.ps P.layout) P.interruptStackMap s.memory.tables
  let range ← MonzaRange.setOwner {} ⟨address⟩ pagetable
  let ownership := s.memory.ownership.newHead (listHead s.count)
  .ok { s with
    memory := { s.memory with tables := tables, ownership := ownership }
    count := s.count + 1
    instances := Function.update s.instances s.count
      { address := address, alive := true, localState := some range } }

/-- The range of a compartment whose `LocalState` exists. -/
def withRange (n : Nat) (f : MonzaRange → Result Lifetimes) : Result Lifetimes :=
  match (s.instances n).localState with
  | some r => f r
  | none => .error .kabort

/-- The blocks of a range come from a compartment. -/
def record (n base size : Nat) (b : Nat) : Option Nat :=
  if base ≤ b * P.unit ∧ b * P.unit < base + size then some n else s.source b

def alloc (n size : Nat) (range : Option Nat) : Result Lifetimes :=
  s.withRange n fun r => do
    let memory ← r.allocRange P .release (listHead n) size range s.memory
    match range with
    | some base => .ok { s with memory := memory, source := s.record P n base size }
    | none => .ok { s with memory := memory }

def dealloc (n base size : Nat) : Result Lifetimes :=
  s.withRange n fun r => do
    let memory ← r.deallocRange P .release base size s.memory
    .ok { s with memory := memory }

/-- Give up a share of the `LocalState`; `i` is what remains. -/
def unshare (n : Nat) (i : Instance) : Result Lifetimes :=
  if i.alive = false ∧ i.handles = 0 then
    s.withRange n fun r => do
      let memory ← r.destroy P (listHead n) s.memory
      .ok ({ s with memory := memory }.set n { i with localState := none })
  else .ok (s.set n i)

/-- The grants after a fault that did not abort. -/
def grant (n b : Nat) : List Grant :=
  if s.owner b = (s.instances n).getOwner then ⟨n, b, s.source b⟩ :: s.granted else s.granted

/-- The page fault handler, for the compartment that runs. -/
def pageFault (n address : Nat) (err : BitVec 64) : Result Lifetimes :=
  s.withRange n fun r => do
    let memory ← s.memory.pageFaultHandler P (s.instances n).getOwner address
      r.compartmentPagetableRoot err
    .ok { s with memory := memory, granted := s.grant n (address / P.unit) }

/-- `share` and `release` are the construction and the destruction of a `CompartmentMemory`
that belongs to nobody's compartment; what it allocates and gives back are events of their own. -/
inductive Event where
  | construct (address : Nat)
  | alloc (n size : Nat) (range : Option Nat)
  | dealloc (n base size : Nat)
  | share (n : Nat)
  | release (n : Nat)
  | destroy (n : Nat)
  | pageFault (n address : Nat) (err : BitVec 64)
  deriving DecidableEq, Repr

def next (s : Lifetimes) : Event → Result Lifetimes
  | .construct address => s.construct P address
  | .alloc n size range => s.alloc P n size range
  | .dealloc n base size => s.dealloc P n base size
  | .share n => .ok (s.set n { s.instances n with handles := (s.instances n).handles + 1 })
  | .release n => s.unshare P n { s.instances n with handles := (s.instances n).handles - 1 }
  | .destroy n => s.unshare P n { s.instances n with alive := false }
  | .pageFault n address err => s.pageFault P n address err

/-- Objects have addresses, no two of them the same at one time, and are used while they exist.
The parent range answers in whole units. -/
def Legal (s : Lifetimes) : Event → Prop
  | .construct address =>
      address ≠ 0 ∧ ∀ n < s.count, (s.instances n).alive = true → (s.instances n).address ≠ address
  | .alloc n size range =>
      (s.instances n).alive = true ∧ ∀ base ∈ range, Monza.Event.Units P base size
  | .dealloc n base size => (s.instances n).localState ≠ none ∧ Monza.Event.Units P base size
  | .share n | .destroy n | .pageFault n _ _ => (s.instances n).alive = true
  | .release n => 0 < (s.instances n).handles

/-- One completed event. -/
def Step (s : Lifetimes) (e : Event) (t : Lifetimes) : Prop := s.Legal P e ∧ s.next P e = .ok t

/-- No compartment yet, and no memory with an owner. -/
structure Initial (s : Lifetimes) : Prop where
  count : s.count = 0
  instances : ∀ n, s.instances n = {}
  ownership : s.memory.ownership = .empty
  granted : s.granted = []

/-! ## What is claimed of the owners -/

/-- Equal owners denote one compartment, over all that ever were. -/
def Distinct : Prop :=
  ∀ n < s.count, ∀ m < s.count, (s.instances n).getOwner = (s.instances m).getOwner → n = m

/-- A block with the owner of a living compartment was allocated through its `LocalState`. -/
def OwnPages : Prop :=
  ∀ n < s.count, (s.instances n).alive = true → ∀ b, s.owner b = (s.instances n).getOwner →
    s.source b = some n

def OwnGrants : Prop := ∀ g ∈ s.granted, g.source = some g.grantee

/-- No compartment is constructed where one has been. -/
def NewAddress (s : Lifetimes) : Event → Prop
  | .construct address => ∀ n < s.count, (s.instances n).address ≠ address
  | _ => True

/-- No compartment is constructed where one has been that still owns memory. -/
def Unowned (s : Lifetimes) : Event → Prop
  | .construct address => ∀ b, s.owner b ≠ ⟨address⟩
  | _ => True

end Lifetimes

/-! ## Steps that only take memory back -/

/-- Owners are kept or cleared. -/
def System.Clears (s t : System) : Prop :=
  ∀ b, (t.ownership.entries b).owner = (s.ownership.entries b).owner ∨
    (t.ownership.entries b).owner = .null

namespace System.Clears

variable {s t u : System}

theorem of_eq (h : t.ownership = s.ownership) : s.Clears t := by
  intro b
  rw [h]
  exact Or.inl rfl

theorem trans (first : s.Clears t) (second : t.Clears u) : s.Clears u := by
  intro b
  rcases second b with same | cleared
  · rw [same]
    exact first b
  · exact Or.inr cleared

theorem setOwner_null (s : System) (b : Nat) :
    s.Clears { s with ownership := s.ownership.setOwner b .null } := by
  intro c
  show ((s.ownership.setOwner b .null).entries c).owner = _ ∨ _
  rw [OwnershipMap.setOwner_owner]
  by_cases h : c = b
  · rw [if_pos h]
    exact Or.inr rfl
  · rw [if_neg h]
    exact Or.inl rfl

end System.Clears

theorem OwnershipMap.removeMonzaOwner_clears {unit p size : Nat} {owner : CompartmentOwner}
    {m m' : OwnershipMap} (run : removeMonzaOwner unit p size owner m = .ok m') (b : Nat) :
    (m'.entries b).owner = (m.entries b).owner ∨ (m'.entries b).owner = .null := by
  -- Every iteration clears the owner of one entry.
  let kept (u : OwnershipMap) :=
    (u.entries b).owner = (m.entries b).owner ∨ (u.entries b).owner = .null
  have all : Sat (removeMonzaOwner unit p size owner m) (fun u => ∃ a, kept u ∧
      decide (a < u64 (p + size)) = false) (fun _ => True) := by
    refine loop_invariant (fun _ u => kept u) ?_ (Or.inl rfl)
    intro a u h _
    refine Sat.guard trivial fun _ => ?_
    refine (removeFromList_owner (m := u.setOwner (a / unit) .null)).mono ?_ (fun _ _ => trivial)
    intro u' same
    show (u'.entries b).owner = _ ∨ _
    rw [same b, setOwner_owner]
    by_cases here : b = a / unit
    · rw [if_pos here]
      exact Or.inr rfl
    · rw [if_neg here]
      exact h
  obtain ⟨_, h, _⟩ := all.of_ok run
  exact h

namespace MonzaRange

variable {P : Platform} {r : MonzaRange} {head : CompartmentOwner} {s t : System}

theorem deallocRange_clears {base size : Nat}
    (run : r.deallocRange P .release base size s = .ok t) : s.Clears t := by
  by_cases null : r.owner = .null
  · rw [deallocRange_of_null null] at run
    cases run
    exact .of_eq rfl
  · rw [deallocRange_release null] at run
    obtain ⟨tables, -, run⟩ := bind_eq_ok.mp run
    obtain ⟨ownership, removed, run⟩ := bind_eq_ok.mp run
    cases run
    exact OwnershipMap.removeMonzaOwner_clears removed

theorem reclaimBlock_clears {b : Nat} (run : r.reclaimBlock P .release b s = .ok t) :
    s.Clears t := by
  obtain ⟨u, first, last⟩ := bind_eq_ok.mp run
  cases last
  exact (deallocRange_clears first).trans (.setOwner_null u b)

theorem forallEntries_clears {fuel : Nat} {link : Option ListLink}
    (run : System.forallEntries System.ownership head (r.reclaimBlock P .release) fuel link s =
      .ok t) : s.Clears t := by
  induction fuel generalizing link s with
  | zero => cases run
  | succ fuel ih =>
      cases link with
      | none => cases run
      | some link =>
          cases link with
          | head h =>
              rw [System.forallEntries] at run
              split at run
              next =>
                cases run
                exact .of_eq rfl
              next => cases run
          | entry b =>
              obtain ⟨u, first, rest⟩ := bind_eq_ok.mp run
              exact (reclaimBlock_clears first).trans (ih rest)

theorem deallocAll_clears (run : r.deallocAll P .release head s = .ok t) : s.Clears t := by
  refine System.Clears.trans ?_ (forallEntries_clears run)
  exact fun b => Or.inl OwnershipMap.lazyInit_owner

theorem destroy_clears (run : r.destroy P head s = .ok t) : s.Clears t := by
  obtain ⟨u, first, last⟩ := bind_eq_ok.mp run
  refine (deallocAll_clears first).trans ?_
  split at last
  all_goals
    cases last
    exact .of_eq rfl

end MonzaRange

theorem System.pageFaultHandler_ownership {P : Platform} {compartment : CompartmentOwner}
    {address root : Nat} {err : BitVec 64} {s t : System}
    (run : s.pageFaultHandler P compartment address root err = .ok t) :
    t.ownership = s.ownership := by
  obtain ⟨perm, tables, -, -, rfl⟩ := System.pageFaultHandler_cases run
  rfl

namespace Lifetimes

variable {P : Platform} {s t u : Lifetimes}

/-- A grant of now: the compartment lives and the pagemap says that the block is its own. -/
structure Grants (s : Lifetimes) (g : Grant) : Prop where
  alive : (s.instances g.grantee).alive = true
  owner : s.owner g.block = (s.instances g.grantee).getOwner
  source : g.source = s.source g.block

/-- No compartment comes, and no block gets another owner. -/
structure Shrinks (s t : Lifetimes) : Prop where
  count : t.count = s.count
  address : ∀ n, (t.instances n).address = (s.instances n).address
  alive : ∀ n, (t.instances n).alive = true → (s.instances n).alive = true
  localState : ∀ n r, (t.instances n).localState = some r → (s.instances n).localState = some r
  source : t.source = s.source
  clears : s.memory.Clears t.memory
  granted : ∀ g ∈ t.granted, g ∈ s.granted ∨ s.Grants g

namespace Shrinks

theorem of_memory {memory : System} {granted : List Grant} (h : s.memory.Clears memory)
    (grants : ∀ g ∈ granted, g ∈ s.granted ∨ s.Grants g) :
    Shrinks s { s with memory := memory, granted := granted } :=
  ⟨rfl, fun _ => rfl, fun _ h => h, fun _ _ h => h, rfl, h, grants⟩

/-- A compartment loses what it had. -/
theorem set {memory : System} {n : Nat} {i : Instance} (h : s.memory.Clears memory)
    (address : i.address = (s.instances n).address)
    (alive : i.alive = true → (s.instances n).alive = true)
    (localState : ∀ r, i.localState = some r → (s.instances n).localState = some r) :
    Shrinks s ({ s with memory := memory }.set n i) := by
  have other : ∀ m, m ≠ n → Function.update s.instances n i m = s.instances m :=
    fun m ne => Function.update_of_ne ne i s.instances
  have same : Function.update s.instances n i n = i := Function.update_self n i s.instances
  refine ⟨rfl, fun m => ?_, fun m => ?_, fun m => ?_, rfl, h, fun _ => .inl⟩
  all_goals
    by_cases here : m = n
    · subst here
      simp only [Lifetimes.set, same]
      assumption
    · simp only [Lifetimes.set, other m here, imp_self, implies_true]

theorem owner (h : Shrinks s t) (b : Nat) : t.owner b = s.owner b ∨ t.owner b = .null := h.clears b

theorem getOwner (h : Shrinks s t) (n : Nat) :
    (t.instances n).getOwner = (s.instances n).getOwner := by
  rw [Instance.getOwner, h.address, Instance.getOwner]

end Shrinks

theorem withRange_eq_ok {n : Nat} {f : MonzaRange → Result Lifetimes} :
    s.withRange n f = .ok t ↔ ∃ r, (s.instances n).localState = some r ∧ f r = .ok t := by
  rw [withRange]
  cases (s.instances n).localState with
  | none =>
      constructor
      · intro no
        cases no
      · rintro ⟨r, no, -⟩
        cases no
  | some r =>
      constructor
      · exact fun h => ⟨r, rfl, h⟩
      · rintro ⟨_, ⟨⟩, h⟩
        exact h

theorem shrinks_unshare {n : Nat} {i : Instance} (run : s.unshare P n i = .ok t)
    (address : i.address = (s.instances n).address)
    (alive : i.alive = true → (s.instances n).alive = true)
    (localState : i.localState = (s.instances n).localState) : Shrinks s t := by
  rw [unshare] at run
  split at run
  next =>
    obtain ⟨r, -, run⟩ := withRange_eq_ok.mp run
    obtain ⟨memory, gone, run⟩ := bind_eq_ok.mp run
    cases run
    exact .set (MonzaRange.destroy_clears gone) address alive (fun r no => by cases no)
  next =>
    cases run
    exact .set (.of_eq rfl) address alive (fun r h => localState ▸ h)

/-! ## What a step can do -/

/-- A compartment comes, with a range that has no memory yet. -/
structure Constructs (s : Lifetimes) (address : Nat) (t : Lifetimes) : Prop where
  nonnull : address ≠ 0
  apart : ∀ n < s.count, (s.instances n).alive = true → (s.instances n).address ≠ address
  count : t.count = s.count + 1
  new : ∃ r : MonzaRange, r.owner = ⟨address⟩ ∧
    t.instances s.count = { address := address, alive := true, localState := some r }
  old : ∀ n, n ≠ s.count → t.instances n = s.instances n
  source : t.source = s.source
  owner : ∀ b, t.owner b = s.owner b
  granted : t.granted = s.granted

/-- A living compartment gets the blocks of a range, which had no owner. -/
structure Allocates (P : Platform) (s : Lifetimes) (n base size : Nat) (t : Lifetimes) : Prop where
  alive : (s.instances n).alive = true
  count : t.count = s.count
  instances : t.instances = s.instances
  inside : ∀ b, base ≤ b * P.unit → b * P.unit < base + size →
    t.owner b = (s.instances n).getOwner ∧ t.source b = some n
  outside : ∀ b, ¬ (base ≤ b * P.unit ∧ b * P.unit < base + size) →
    t.owner b = s.owner b ∧ t.source b = s.source b
  granted : t.granted = s.granted

inductive Effect (P : Platform) (s : Lifetimes) : Event → Lifetimes → Prop
  | construct {address : Nat} {t : Lifetimes} :
      Constructs s address t → Effect P s (.construct address) t
  | alloc {n base size : Nat} {t : Lifetimes} :
      Allocates P s n base size t → Effect P s (.alloc n size (some base)) t
  | shrink {e : Event} {t : Lifetimes} :
      (∀ address, e ≠ .construct address) → Shrinks s t → Effect P s e t

/-- Compartments that exist have a range with their owner. What has an owner has come from a
compartment with the address that the owner is. -/
structure Inv (s : Lifetimes) : Prop where
  alive : ∀ n, (s.instances n).alive = true → n < s.count
  nonnull : ∀ n < s.count, (s.instances n).address ≠ 0
  range : ∀ n r, (s.instances n).localState = some r →
    n < s.count ∧ r.owner = (s.instances n).getOwner
  apart : ∀ n m, (s.instances n).alive = true → (s.instances m).alive = true →
    (s.instances n).getOwner = (s.instances m).getOwner → n = m
  source : ∀ b, s.owner b ≠ .null →
    ∃ n < s.count, s.source b = some n ∧ s.owner b = (s.instances n).getOwner

theorem getOwner_eq_iff {i : Instance} {address : Nat} :
    i.getOwner = ⟨address⟩ ↔ i.address = address := by
  rw [Instance.getOwner, CompartmentOwner.mk.injEq]

theorem constructs_of_step {address : Nat} (h : s.Step P (.construct address) t) :
    Constructs s address t := by
  obtain ⟨⟨nonnull, apart⟩, run⟩ := h
  obtain ⟨⟨root, tables⟩, -, run⟩ := bind_eq_ok.mp run
  obtain ⟨r, owner, run⟩ := bind_eq_ok.mp run
  obtain ⟨-, owner⟩ := guard_eq_ok.mp owner
  cases owner
  cases run
  refine ⟨nonnull, apart, rfl, ⟨_, rfl, Function.update_self ..⟩, ?_, rfl, fun _ => rfl, rfl⟩
  exact fun n ne => Function.update_of_ne ne _ _

theorem getMonzaOwner_mul (m : OwnershipMap) (b : Nat) :
    OwnershipMap.getMonzaOwner P.unit m (b * P.unit) = (m.entries b).owner := by
  rw [OwnershipMap.getMonzaOwner, Nat.mul_div_cancel b P.unit_pos]

theorem allocates_of_step (inv : s.Inv) {n size base : Nat}
    (h : s.Step P (.alloc n size (some base)) t) : Allocates P s n base size t := by
  obtain ⟨⟨alive, units⟩, run⟩ := h
  have units := units base rfl
  obtain ⟨r, range, run⟩ := withRange_eq_ok.mp run
  obtain ⟨lt, owner⟩ := inv.range n r range
  have known : r.owner ≠ .null := by
    rw [owner]
    exact fun null => inv.nonnull n lt (getOwner_eq_iff.mp null)
  obtain ⟨memory, taken, run⟩ := bind_eq_ok.mp run
  cases run
  rw [MonzaRange.allocRange_release known] at taken
  obtain ⟨ownership, added, taken⟩ := bind_eq_ok.mp taken
  obtain ⟨tables, -, taken⟩ := bind_eq_ok.mp taken
  cases taken
  have links : OwnershipMap.Links (fun _ => True) s.memory.ownership :=
    ⟨fun _ => ⟨fun _ _ => trivial, fun _ _ => trivial⟩,
      fun _ => ⟨fun _ _ => trivial, fun _ _ => trivial⟩⟩
  have update := ((OwnershipMap.addMonzaOwner_sat P.unit_pos units.aligned units.alignedSize
    units.bound links (fun _ _ => trivial)).of_ok added).1
  refine ⟨alive, rfl, rfl, fun b lo hi => ⟨?_, if_pos ⟨lo, hi⟩⟩, fun b out => ⟨?_, if_neg out⟩, rfl⟩
  · have after := update.after (b * P.unit)
    rw [if_pos ⟨lo, hi⟩, getMonzaOwner_mul] at after
    exact after.trans owner
  · have after := update.after (b * P.unit)
    rw [if_neg out, getMonzaOwner_mul, getMonzaOwner_mul] at after
    exact after

theorem effect_of_step (inv : s.Inv) {e : Event} (h : s.Step P e t) : Effect P s e t := by
  cases e with
  | construct address => exact .construct (constructs_of_step h)
  | alloc n size range =>
      cases range with
      | some base => exact .alloc (allocates_of_step inv h)
      | none =>
          obtain ⟨r, -, run⟩ := withRange_eq_ok.mp h.2
          cases run
          exact .shrink (fun _ no => by cases no) (.of_memory (.of_eq rfl) fun _ => .inl)
  | dealloc n base size =>
      obtain ⟨r, -, run⟩ := withRange_eq_ok.mp h.2
      obtain ⟨memory, given, run⟩ := bind_eq_ok.mp run
      cases run
      exact .shrink (fun _ no => by cases no)
        (.of_memory (MonzaRange.deallocRange_clears given) fun _ => .inl)
  | share n =>
      cases h.2
      exact .shrink (fun _ no => by cases no) (.set (.of_eq rfl) rfl id (fun _ => id))
  | release n => exact .shrink (fun _ no => by cases no) (shrinks_unshare h.2 rfl id rfl)
  | destroy n =>
      exact .shrink (fun _ no => by cases no) (shrinks_unshare h.2 rfl (fun _ => h.1) rfl)
  | pageFault n address err =>
      obtain ⟨r, -, run⟩ := withRange_eq_ok.mp h.2
      obtain ⟨memory, handled, run⟩ := bind_eq_ok.mp run
      cases run
      refine .shrink (fun _ no => by cases no)
        (.of_memory (.of_eq (System.pageFaultHandler_ownership handled)) ?_)
      intro g mem
      rw [grant] at mem
      split at mem
      next own =>
        rcases List.mem_cons.mp mem with rfl | mem
        · exact Or.inr ⟨h.1, own, rfl⟩
        · exact Or.inl mem
      next => exact Or.inl mem

theorem Initial.inv (h : s.Initial) : s.Inv := by
  have none : ∀ b, s.owner b = .null := by
    intro b
    rw [owner, h.ownership]
    rfl
  refine ⟨?_, ?_, ?_, ?_, fun b own => absurd (none b) own⟩
  · intro n alive
    rw [h.instances n] at alive
    cases alive
  · intro n lt
    rw [h.count] at lt
    omega
  · intro n r range
    rw [h.instances n] at range
    cases range
  · intro n m alive
    rw [h.instances n] at alive
    cases alive

theorem Inv.shrink (inv : s.Inv) (h : Shrinks s t) : t.Inv := by
  refine ⟨?_, ?_, ?_, ?_, ?_⟩
  · intro n alive
    rw [h.count]
    exact inv.alive n (h.alive n alive)
  · intro n lt
    rw [h.address]
    exact inv.nonnull n (h.count ▸ lt)
  · intro n r range
    rw [h.count, h.getOwner]
    exact inv.range n r (h.localState n r range)
  · intro n m alive alive' same
    rw [h.getOwner, h.getOwner] at same
    exact inv.apart n m (h.alive n alive) (h.alive m alive') same
  · intro b own
    rcases h.owner b with kept | cleared
    · rw [kept] at own ⊢
      obtain ⟨n, lt, source, owner⟩ := inv.source b own
      refine ⟨n, h.count ▸ lt, ?_, ?_⟩
      · rw [h.source]
        exact source
      · rw [h.getOwner]
        exact owner
    · exact absurd cleared own

theorem Inv.alloc {n base size : Nat} (inv : s.Inv) (a : Allocates P s n base size t) : t.Inv := by
  refine ⟨?_, ?_, ?_, ?_, ?_⟩
  · rw [a.instances, a.count]
    exact inv.alive
  · rw [a.instances, a.count]
    exact inv.nonnull
  · rw [a.instances, a.count]
    exact inv.range
  · rw [a.instances]
    exact inv.apart
  · intro b own
    rw [a.instances, a.count]
    by_cases inside : base ≤ b * P.unit ∧ b * P.unit < base + size
    · obtain ⟨owner, source⟩ := a.inside b inside.1 inside.2
      exact ⟨n, inv.alive n a.alive, source, owner⟩
    · obtain ⟨owner, source⟩ := a.outside b inside
      rw [owner] at own ⊢
      rw [source]
      exact inv.source b own

namespace Constructs

variable {address n : Nat}

theorem lt_or_eq (c : Constructs s address t) (lt : n < t.count) : n < s.count ∨ n = s.count := by
  rw [c.count] at lt
  omega

theorem of_lt (c : Constructs s address t) (lt : n < s.count) : t.instances n = s.instances n :=
  c.old n (Nat.ne_of_lt lt)

theorem new_getOwner (c : Constructs s address t) : (t.instances s.count).getOwner = ⟨address⟩ := by
  obtain ⟨r, -, new⟩ := c.new
  rw [new]
  rfl

theorem new_alive (c : Constructs s address t) : (t.instances s.count).alive = true := by
  obtain ⟨r, -, new⟩ := c.new
  rw [new]

/-- Compartments at one address do not live at one time. -/
theorem dead (c : Constructs s address t) (lt : n < s.count)
    (same : (t.instances n).getOwner = (t.instances s.count).getOwner) :
    (t.instances n).alive = false := by
  rw [c.of_lt lt, c.new_getOwner] at same
  rw [c.of_lt lt, ← Bool.not_eq_true]
  exact fun alive => c.apart n lt alive (getOwner_eq_iff.mp same)

end Constructs

theorem Inv.construct {address : Nat} (inv : s.Inv) (c : Constructs s address t) : t.Inv := by
  have bound : ∀ n, (t.instances n).alive = true → n < t.count := by
    intro n alive
    rw [c.count]
    by_cases here : n = s.count
    · omega
    · rw [c.old n here] at alive
      have := inv.alive n alive
      omega
  refine ⟨bound, ?_, ?_, ?_, ?_⟩
  · intro n lt
    rcases c.lt_or_eq lt with lt | rfl
    · rw [c.of_lt lt]
      exact inv.nonnull n lt
    · rw [getOwner_eq_iff.mp c.new_getOwner]
      exact c.nonnull
  · intro n r range
    by_cases here : n = s.count
    · subst here
      obtain ⟨r', owner, new⟩ := c.new
      rw [new] at range
      cases range
      rw [c.new_getOwner, c.count]
      exact ⟨Nat.lt_succ_self _, owner⟩
    · rw [c.old n here] at range ⊢
      obtain ⟨lt, owner⟩ := inv.range n r range
      rw [c.count]
      exact ⟨Nat.lt_succ_of_lt lt, owner⟩
  · intro n m alive alive' same
    rcases c.lt_or_eq (bound n alive) with lt | rfl <;>
      rcases c.lt_or_eq (bound m alive') with lt' | rfl
    · rw [c.of_lt lt] at alive same
      rw [c.of_lt lt'] at alive' same
      exact inv.apart n m alive alive' same
    · rw [c.dead lt same] at alive
      cases alive
    · rw [c.dead lt' same.symm] at alive'
      cases alive'
    · rfl
  · intro b own
    rw [c.owner] at own ⊢
    obtain ⟨n, lt, source, owner⟩ := inv.source b own
    refine ⟨n, ?_, ?_, ?_⟩
    · rw [c.count]
      exact Nat.lt_succ_of_lt lt
    · rw [c.source]
      exact source
    · rw [c.of_lt lt]
      exact owner

theorem Inv.step (inv : s.Inv) {e : Event} (h : s.Step P e t) : t.Inv := by
  cases effect_of_step inv h with
  | construct c => exact inv.construct c
  | alloc a => exact inv.alloc a
  | shrink _ h => exact inv.shrink h

/-! ## Blocks of living compartments -/

theorem OwnPages.construct {address : Nat} (pages : s.OwnPages) (c : Constructs s address t)
    (unowned : ∀ b, s.owner b ≠ ⟨address⟩) : t.OwnPages := by
  intro n lt alive b own
  rw [c.owner] at own
  rcases c.lt_or_eq lt with lt | rfl
  · rw [c.of_lt lt] at alive own
    rw [c.source]
    exact pages n lt alive b own
  · rw [c.new_getOwner] at own
    exact absurd own (unowned b)

theorem OwnPages.alloc {n base size : Nat} (pages : s.OwnPages) (inv : s.Inv)
    (a : Allocates P s n base size t) : t.OwnPages := by
  intro m lt alive b own
  rw [a.instances] at alive own
  rw [a.count] at lt
  by_cases inside : base ≤ b * P.unit ∧ b * P.unit < base + size
  · obtain ⟨owner, source⟩ := a.inside b inside.1 inside.2
    rw [source, inv.apart n m a.alive alive (owner.symm.trans own)]
  · obtain ⟨owner, source⟩ := a.outside b inside
    rw [source]
    exact pages m lt alive b (owner.symm.trans own)

theorem OwnPages.shrink (pages : s.OwnPages) (inv : s.Inv) (h : Shrinks s t) : t.OwnPages := by
  intro n lt alive b own
  rw [h.count] at lt
  rw [h.getOwner] at own
  rw [h.source]
  rcases h.owner b with kept | cleared
  · exact pages n lt (h.alive n alive) b (kept.symm.trans own)
  · rw [cleared] at own
    exact absurd (getOwner_eq_iff.mp own.symm) (inv.nonnull n lt)

theorem OwnPages.step (pages : s.OwnPages) (inv : s.Inv) {e : Event} (h : s.Step P e t)
    (unowned : s.Unowned e) : t.OwnPages := by
  cases effect_of_step inv h with
  | construct c => exact pages.construct c unowned
  | alloc a => exact pages.alloc inv a
  | shrink _ h => exact pages.shrink inv h

/-- A compartment at an address that owns memory is taken for the owner. -/
theorem not_ownPages_of_construct {address : Nat} (inv : s.Inv) (c : Constructs s address t)
    (owned : ¬ s.Unowned (.construct address)) : ¬ t.OwnPages := by
  intro pages
  obtain ⟨b, own⟩ := not_forall_not.mp owned
  have known : s.owner b ≠ .null := by
    rw [own]
    exact fun null => c.nonnull (congrArg CompartmentOwner.id null)
  obtain ⟨n, lt, source, -⟩ := inv.source b known
  have new := pages s.count (c.count ▸ Nat.lt_succ_self _) c.new_alive b
    ((c.owner b).trans (own.trans c.new_getOwner.symm))
  rw [c.source, source] at new
  exact Nat.ne_of_lt lt (Option.some.inj new)

theorem OwnGrants.step (grants : s.OwnGrants) (pages : s.OwnPages) (inv : s.Inv) {e : Event}
    (h : s.Step P e t) : t.OwnGrants := by
  have all : ∀ g ∈ t.granted, g ∈ s.granted ∨ s.Grants g := by
    cases effect_of_step inv h with
    | construct c => exact fun g mem => Or.inl (c.granted ▸ mem)
    | alloc a => exact fun g mem => Or.inl (a.granted ▸ mem)
    | shrink _ h => exact h.granted
  intro g mem
  rcases all g mem with old | new
  · exact grants g old
  · rw [new.source]
    exact pages g.grantee (inv.alive _ new.alive) new.alive g.block new.owner

/-! ## Whole runs -/

theorem own_of_run {events : List Event} {cond : Lifetimes → Event → Prop} (boot : s.Initial)
    (enough : ∀ s e, s.Inv → s.Legal P e → cond s e → s.Unowned e)
    (run : Run (fun s e t => cond s e ∧ s.Step P e t) s events t) : t.OwnPages ∧ t.OwnGrants := by
  have start : s.Inv ∧ s.OwnPages ∧ s.OwnGrants := by
    refine ⟨boot.inv, ?_, ?_⟩
    · intro n lt
      rw [boot.count] at lt
      omega
    · intro g mem
      rw [boot.granted] at mem
      exact absurd mem List.not_mem_nil
  refine (run.invariant (fun s => s.Inv ∧ s.OwnPages ∧ s.OwnGrants) ?_ start).2
  rintro s e t ⟨inv, pages, grants⟩ ⟨met, step⟩
  exact ⟨inv.step step, pages.step inv step (enough s e inv step.1 met),
    grants.step pages inv step⟩

theorem inv_of_run {events : List Event} (boot : s.Initial) (run : Run (Step P) s events t) :
    t.Inv :=
  run.invariant Inv (fun _ _ _ inv step => inv.step step) boot.inv

/-- Nobody has owned memory under an address where no compartment has been. -/
theorem Inv.unowned (inv : s.Inv) {e : Event} (legal : s.Legal P e) (h : s.NewAddress e) :
    s.Unowned e := by
  cases e with
  | construct address =>
      intro b own
      have known : s.owner b ≠ .null := by
        rw [own]
        exact fun null => legal.1 (congrArg CompartmentOwner.id null)
      obtain ⟨n, lt, -, owner⟩ := inv.source b known
      exact h n lt (getOwner_eq_iff.mp (owner.symm.trans own))
  | _ => trivial

/-- Owners stay distinct as long as no address is used again, and only then. -/
theorem distinct_step_iff (inv : s.Inv) {e : Event} (h : s.Step P e t) :
    t.Distinct ↔ s.Distinct ∧ s.NewAddress e := by
  cases effect_of_step inv h with
  | construct c =>
      constructor
      · intro distinct
        have wider : ∀ n < s.count, n < t.count := fun n lt => c.count ▸ Nat.lt_succ_of_lt lt
        refine ⟨fun n lt m lt' same => ?_, fun n lt used => ?_⟩
        · rw [← c.of_lt lt, ← c.of_lt lt'] at same
          exact distinct n (wider n lt) m (wider m lt') same
        · have same : (t.instances n).getOwner = (t.instances s.count).getOwner := by
            rw [c.of_lt lt, c.new_getOwner]
            exact getOwner_eq_iff.mpr used
          have := distinct n (wider n lt) s.count (c.count ▸ Nat.lt_succ_self _) same
          omega
      · rintro ⟨distinct, new⟩ n lt m lt' same
        rcases c.lt_or_eq lt with lt | rfl <;> rcases c.lt_or_eq lt' with lt' | rfl
        · rw [c.of_lt lt, c.of_lt lt'] at same
          exact distinct n lt m lt' same
        · rw [c.of_lt lt, c.new_getOwner] at same
          exact absurd (getOwner_eq_iff.mp same) (new n lt)
        · rw [c.of_lt lt', c.new_getOwner] at same
          exact absurd (getOwner_eq_iff.mp same.symm) (new m lt')
        · rfl
  | alloc a =>
      rw [Distinct, a.instances, a.count]
      exact ⟨fun distinct => ⟨distinct, trivial⟩, And.left⟩
  | @shrink e t other h =>
      have new : s.NewAddress e := by
        cases e with
        | construct address => exact absurd rfl (other address)
        | _ => trivial
      have same : t.Distinct ↔ s.Distinct := by
        simp only [Distinct, h.count, h.getOwner]
      exact same.trans ⟨fun distinct => ⟨distinct, new⟩, And.left⟩

theorem distinct_iff_run {events : List Event} (inv : s.Inv) (run : Run (Step P) s events t) :
    t.Distinct ↔ s.Distinct ∧ Run (fun s e t => s.NewAddress e ∧ s.Step P e t) s events t := by
  induction run with
  | nil s => exact ⟨fun distinct => ⟨distinct, .nil s⟩, And.left⟩
  | cons first rest ih =>
      refine (ih (inv.step first)).trans ?_
      rw [distinct_step_iff inv first]
      constructor
      · rintro ⟨⟨distinct, new⟩, later⟩
        exact ⟨distinct, .cons ⟨new, first⟩ later⟩
      · rintro ⟨distinct, _ | ⟨⟨new, first'⟩, later⟩⟩
        cases first.2.symm.trans first'.2
        exact ⟨⟨distinct, new⟩, later⟩

/-- Ownership ends with the compartment in the runs that construct no compartment where one
has been. The blocks alone need less: in the runs that construct none where one still owns
memory, a living compartment is neither the owner of a foreign block nor granted one. A
construction outside of that condition makes the new compartment the owner of a foreign block. -/
theorem ownership_ends_iff {boot : Lifetimes} {events : List Event} (init : boot.Initial)
    (run : Run (Step P) boot events s) :
    (s.Distinct ∧ s.OwnPages ∧ s.OwnGrants ↔
      Run (fun s e t => s.NewAddress e ∧ s.Step P e t) boot events s) ∧
    (Run (fun s e t => s.Unowned e ∧ s.Step P e t) boot events s → s.OwnPages ∧ s.OwnGrants) ∧
    ∀ address t, s.Step P (.construct address) t → ¬ s.Unowned (.construct address) →
      ¬ t.OwnPages := by
  have start : boot.Distinct := by
    intro n lt
    rw [init.count] at lt
    omega
  refine ⟨⟨fun h => ((distinct_iff_run init.inv run).mp h.1).2, fun fresh => ?_⟩,
    own_of_run init fun _ _ _ _ => id, fun address t step => ?_⟩
  · exact ⟨(distinct_iff_run init.inv run).mpr ⟨start, fresh⟩,
      own_of_run init (fun _ _ inv legal => inv.unowned legal) fresh⟩
  · exact not_ownPages_of_construct (inv_of_run init run) (constructs_of_step step)

section Sample

instance (s : Lifetimes) : DecidablePred (s.Legal P)
  | .construct address => inferInstanceAs (Decidable (address ≠ 0 ∧ ∀ n < s.count,
      (s.instances n).alive = true → (s.instances n).address ≠ address))
  | .alloc n size range => inferInstanceAs (Decidable ((s.instances n).alive = true ∧
      ∀ base ∈ range, Monza.Event.Units P base size))
  | .dealloc n base size => inferInstanceAs (Decidable ((s.instances n).localState ≠ none ∧
      Monza.Event.Units P base size))
  | .share n | .destroy n | .pageFault n _ _ =>
      inferInstanceAs (Decidable ((s.instances n).alive = true))
  | .release n => inferInstanceAs (Decidable (0 < (s.instances n).handles))

instance (s : Lifetimes) : DecidablePred s.NewAddress
  | .construct address =>
      inferInstanceAs (Decidable (∀ n < s.count, (s.instances n).address ≠ address))
  | .alloc .. | .dealloc .. | .share _ | .release _ | .destroy _ | .pageFault .. =>
      inferInstanceAs (Decidable True)

/-- Follow events as long as they are legal, meet a condition and complete. -/
def simulate (P : Platform) (cond : Lifetimes → Event → Prop) [∀ s, DecidablePred (cond s)] :
    List Event → Lifetimes → Option Lifetimes :=
  Transition.simulate (fun s e => cond s e ∧ s.Legal P e) fun s e => (s.next P e).toOption

theorem simulate_run {cond : Lifetimes → Event → Prop} [∀ s, DecidablePred (cond s)]
    {events : List Event} (h : simulate P cond events s = some t) :
    Run (fun s e t => cond s e ∧ s.Step P e t) s events t := by
  refine (Transition.simulate_run h).mono ?_
  rintro s e t ⟨⟨met, legal⟩, done⟩
  exact ⟨met, legal, toOption_eq_some.mp done⟩

def sampleBoot : Lifetimes := ⟨smallBoot, 0, fun _ => {}, fun _ => none, []⟩

theorem sampleBoot_initial : sampleBoot.Initial := ⟨rfl, fun _ => rfl, rfl, rfl⟩

/-- The memory of a compartment outlives it. Another compartment, elsewhere, gets it after. -/
def sampleElsewhere : List Event :=
  [.construct 0x5000, .alloc 0 0x4000 (some 0x40000), .share 0, .destroy 0, .construct 0x6000,
    .release 0, .alloc 1 0x4000 (some 0x40000), .pageFault 1 0x41000 6]

theorem ownership_ends_elsewhere : ∃ s, Run (Step smallPlatform) sampleBoot sampleElsewhere s ∧
    s.granted.length = 1 ∧ s.Distinct ∧ s.OwnPages ∧ s.OwnGrants := by
  have done : (simulate smallPlatform NewAddress sampleElsewhere sampleBoot).map
      (fun s => s.granted.length) = some 1 := by
    decide +kernel
  obtain ⟨s, hs, length⟩ := Option.map_eq_some_iff.mp done
  have fresh := simulate_run hs
  have run : Run (Step smallPlatform) sampleBoot sampleElsewhere s := fresh.mono fun _ _ _ h => h.2
  exact ⟨s, run, length, (ownership_ends_iff sampleBoot_initial run).1.mpr fresh⟩

/-- The memory of a compartment outlives it, and the next compartment has its address. -/
def sampleAgain : List Event :=
  [.construct 0x5000, .alloc 0 0x4000 (some 0x40000), .share 0, .destroy 0, .construct 0x5000,
    .pageFault 1 0x41000 6]

/-- The new compartment may write to the memory of the old one. -/
def TakenOver (s : Lifetimes) : Prop :=
  s.count = 2 ∧ (s.instances 0).getOwner = (s.instances 1).getOwner ∧
    (s.instances 1).alive = true ∧ s.owner 16 = (s.instances 1).getOwner ∧
    s.source 16 = some 0 ∧ s.granted.map (fun g => (g.grantee, g.source)) = [(1, some 0)] ∧
    (s.instances 1).localState.any (fun r => decide (getPagetableEntry .kib4 s.memory.tables
      r.compartmentPagetableRoot pml4Level 0x41000).UserWritable) = true

instance (s : Lifetimes) : Decidable s.TakenOver :=
  inferInstanceAs (Decidable (_ ∧ _ ∧ _ ∧ _ ∧ _ ∧ _ ∧ _))

theorem compartment_takes_over : sampleBoot.Initial ∧ ∃ s,
    Run (Step smallPlatform) sampleBoot sampleAgain s ∧ s.TakenOver ∧
      ¬ s.Distinct ∧ ¬ s.OwnPages ∧ ¬ s.OwnGrants := by
  have done : (simulate smallPlatform (fun _ _ => True) sampleAgain sampleBoot).map
      (fun s => decide s.TakenOver) = some true := by
    decide +kernel
  obtain ⟨s, hs, facts⟩ := Option.map_eq_some_iff.mp done
  have taken := of_decide_eq_true facts
  refine ⟨sampleBoot_initial, s, (simulate_run hs).mono fun _ _ _ h => h.2, taken, ?_⟩
  obtain ⟨count, same, alive, owner, source, granted, -⟩ := taken
  refine ⟨?_, ?_, ?_⟩
  · intro distinct
    have := distinct 0 (by omega) 1 (by omega) same
    omega
  · intro pages
    have := pages 1 (by omega) alive 16 owner
    rw [source] at this
    cases this
  · intro grants
    obtain ⟨g, mem, pair⟩ : ∃ g ∈ s.granted, (g.grantee, g.source) = (1, some 0) :=
      List.mem_map.mp (granted ▸ List.mem_singleton.mpr rfl)
    have := grants g mem
    rw [(Prod.mk.inj pair).1, (Prod.mk.inj pair).2] at this
    cases this

end Sample

end Lifetimes

end Monza
