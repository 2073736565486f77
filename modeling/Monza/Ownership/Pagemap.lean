import Monza.Machine
import Mathlib.Logic.Function.Basic

/-!
# The ownership pagemap

Memory is owned in blocks of `MIN_OWNERSHIP_SIZE` bytes. The pagemap has one
entry per block with its owner and the links of a circular doubly linked list;
every range object has a list head of its own. The lists are kept exactly as the
source keeps them: the head is linked lazily, and removing an entry leaves its own
links in place.

Blocks outside the pagemap read as the default entry, so the map is total.
-/

namespace Monza

open Outcome

/-- Identity of a compartment; the null identity belongs to the kernel. -/
structure CompartmentOwner where
  id : Nat
  deriving DecidableEq, Repr

def CompartmentOwner.null : CompartmentOwner := ⟨0⟩

/-- `MIN_OWNERSHIP_SIZE`, the larger of a page and a chunk of the allocator. -/
def minOwnershipSize (ps : PageSize) (minChunkBits : Nat) : Nat :=
  max ps.bytes (2 ^ minChunkBits)

/-- A `List::Base*`: the head of a range or the pagemap entry of a block. -/
inductive ListLink where
  | head (range : CompartmentOwner)
  | entry (block : Nat)
  deriving DecidableEq, Repr

structure ListBase where
  next : Option ListLink := none
  prev : Option ListLink := none
  deriving DecidableEq, Repr

/-- Both links of a list element lead to heads or to blocks that meet `Q`. -/
structure ListBase.Points (Q : Nat → Prop) (e : ListBase) : Prop where
  next : ∀ c, e.next = some (.entry c) → Q c
  prev : ∀ c, e.prev = some (.entry c) → Q c

structure ListEntry extends ListBase where
  owner : CompartmentOwner := .null
  deriving DecidableEq, Repr

/-- The pagemap together with the list heads of all ranges, which are named by
their owner. -/
structure OwnershipMap where
  entries : Nat → ListEntry
  heads : CompartmentOwner → ListBase

namespace OwnershipMap

/-- The constant-initialised map: no owners, no links. -/
def empty : OwnershipMap := ⟨fun _ => {}, fun _ => {}⟩

/-- The head of a range that has just been constructed. -/
def newHead (m : OwnershipMap) (r : CompartmentOwner) : OwnershipMap :=
  { m with heads := Function.update m.heads r {} }

def setNext (m : OwnershipMap) (l : ListLink) (v : Option ListLink) : OwnershipMap :=
  match l with
  | .head r => { m with heads := Function.update m.heads r { m.heads r with next := v } }
  | .entry b => { m with entries := Function.update m.entries b { m.entries b with next := v } }

def setPrev (m : OwnershipMap) (l : ListLink) (v : Option ListLink) : OwnershipMap :=
  match l with
  | .head r => { m with heads := Function.update m.heads r { m.heads r with prev := v } }
  | .entry b => { m with entries := Function.update m.entries b { m.entries b with prev := v } }

def setOwner (m : OwnershipMap) (b : Nat) (owner : CompartmentOwner) : OwnershipMap :=
  { m with entries := Function.update m.entries b { m.entries b with owner := owner } }

/-- `Head::lazy_init`. -/
def lazyInit (m : OwnershipMap) (r : CompartmentOwner) : OwnershipMap :=
  if (m.heads r).next = none then
    (m.setNext (.head r) (some (.head r))).setPrev (.head r) (some (.head r))
  else m

/-- `Head::add`. After the lazy initialisation the head has a successor. -/
def addToList (m : OwnershipMap) (r : CompartmentOwner) (b : Nat) : OwnershipMap :=
  let m := m.lazyInit r
  let first := (m.heads r).next
  let m := m.setPrev (.entry b) (some (.head r))
  let m := m.setNext (.entry b) first
  let m :=
    match first with
    | some l => m.setPrev l (some (.entry b))
    | none => m
  m.setNext (.head r) (some (.entry b))

/-- `Entry::remove`. An entry that was never linked is left alone; following a null
`prev` would be a kernel page fault. -/
def removeFromList (m : OwnershipMap) (b : Nat) : Result OwnershipMap :=
  match (m.entries b).next with
  | none => .ok m
  | some n =>
    match (m.entries b).prev with
    | none => .error .kabort
    | some p => .ok ((m.setPrev n (some p)).setNext p (some n))

/-- Addresses are 64-bit, so a loop with more heads than this repeats itself. -/
@[irreducible] def blockLoopBudget : Nat := 2 ^ 64 + 1

/-- The loop `for (a = p; a < p + size; a += MIN_OWNERSHIP_SIZE)` over pagemap entries. -/
def forEachBlock (unit p size : Nat) (body : Nat → OwnershipMap → Result OwnershipMap)
    (m : OwnershipMap) : Result OwnershipMap :=
  loop .diverge (fun a => decide (a < u64 (p + size))) (fun a => u64 (a + unit))
    (fun a => body (a / unit)) blockLoopBudget p m

section

variable (unit : Nat)

def getMonzaOwner (m : OwnershipMap) (p : Nat) : CompartmentOwner := (m.entries (p / unit)).owner

/-- A block that already has an owner is a fatal error. The list head is optional. -/
def addMonzaOwner (p size : Nat) (owner : CompartmentOwner)
    (ownerChunkListHead : Option CompartmentOwner) (m : OwnershipMap) : Result OwnershipMap :=
  forEachBlock unit p size (fun b m =>
    if (m.entries b).owner ≠ .null then .error .kabort
    else
      let m := m.setOwner b owner
      match ownerChunkListHead with
      | some r => .ok (m.addToList r b)
      | none => .ok m) m

/-- A block of another owner is a fatal error. -/
def removeMonzaOwner (p size : Nat) (owner : CompartmentOwner) (m : OwnershipMap) :
    Result OwnershipMap :=
  forEachBlock unit p size (fun b m =>
    if (m.entries b).owner ≠ owner then .error .kabort
    else (m.setOwner b .null).removeFromList b) m

end

section Owners

variable {m : OwnershipMap} {b c : Nat} {l : ListLink} {v : Option ListLink}
variable {r owner : CompartmentOwner}

/-- List surgery never touches owners. -/
@[simp] theorem setNext_owner : ((m.setNext l v).entries b).owner = (m.entries b).owner := by
  cases l with
  | head r => rfl
  | entry c =>
      by_cases h : b = c
      · subst h
        simp [setNext]
      · simp [setNext, h]

@[simp] theorem setPrev_owner : ((m.setPrev l v).entries b).owner = (m.entries b).owner := by
  cases l with
  | head r => rfl
  | entry c =>
      by_cases h : b = c
      · subst h
        simp [setPrev]
      · simp [setPrev, h]

theorem setOwner_owner : ((m.setOwner b owner).entries c).owner =
    if c = b then owner else (m.entries c).owner := by
  by_cases h : c = b
  · subst h
    simp [setOwner]
  · simp [setOwner, h]

@[simp] theorem lazyInit_owner : ((m.lazyInit r).entries c).owner = (m.entries c).owner := by
  rw [lazyInit]
  split <;> simp

@[simp] theorem addToList_owner : ((m.addToList r b).entries c).owner = (m.entries c).owner := by
  rw [addToList]
  cases ((m.lazyInit r).heads r).next <;> simp

theorem removeFromList_owner :
    Sat (m.removeFromList b) (fun m' => ∀ c, (m'.entries c).owner = (m.entries c).owner)
      (fun f => f = .kabort) := by
  rw [removeFromList]
  split
  case h_1 => exact fun _ => rfl
  case h_2 =>
      split
      case h_1 => rfl
      case h_2 => exact fun _ => by simp

end Owners

/-- A change of the owners on `[lo, hi)`: all of them were `old` and are now `new`. -/
structure OwnerUpdate (unit lo hi : Nat) (old new : CompartmentOwner) (m m' : OwnershipMap) :
    Prop where
  before : ∀ a, lo ≤ a → a < hi → getMonzaOwner unit m a = old
  after : ∀ a, getMonzaOwner unit m' a =
    if lo ≤ a ∧ a < hi then new else getMonzaOwner unit m a

/-- Every block that some link leads to meets `Q`. -/
structure Links (Q : Nat → Prop) (m : OwnershipMap) : Prop where
  entry : ∀ b, (m.entries b).toListBase.Points Q
  head : ∀ r, (m.heads r).Points Q

namespace Links

variable {Q : Nat → Prop} {m : OwnershipMap} {l : ListLink} {v : Option ListLink} {b : Nat}
variable {r owner : CompartmentOwner}

theorem newHead (h : Links Q m) : Links Q (m.newHead r) := by
  refine ⟨h.entry, fun q => ?_⟩
  by_cases hq : q = r
  · subst hq
    simp only [OwnershipMap.newHead, Function.update_self]
    exact ⟨by simp, by simp⟩
  · simp only [OwnershipMap.newHead, Function.update_of_ne hq]
    exact h.head q

theorem setNext (h : Links Q m) (hv : ∀ c, v = some (.entry c) → Q c) :
    Links Q (m.setNext l v) := by
  cases l with
  | head r =>
      refine ⟨h.entry, fun q => ?_⟩
      by_cases hq : q = r
      · subst hq
        simp only [OwnershipMap.setNext, Function.update_self]
        exact ⟨hv, (h.head q).prev⟩
      · simp only [OwnershipMap.setNext, Function.update_of_ne hq]
        exact h.head q
  | entry b =>
      refine ⟨fun q => ?_, h.head⟩
      by_cases hq : q = b
      · subst hq
        simp only [OwnershipMap.setNext, Function.update_self]
        exact ⟨hv, (h.entry q).prev⟩
      · simp only [OwnershipMap.setNext, Function.update_of_ne hq]
        exact h.entry q

theorem setPrev (h : Links Q m) (hv : ∀ c, v = some (.entry c) → Q c) :
    Links Q (m.setPrev l v) := by
  cases l with
  | head r =>
      refine ⟨h.entry, fun q => ?_⟩
      by_cases hq : q = r
      · subst hq
        simp only [OwnershipMap.setPrev, Function.update_self]
        exact ⟨(h.head q).next, hv⟩
      · simp only [OwnershipMap.setPrev, Function.update_of_ne hq]
        exact h.head q
  | entry b =>
      refine ⟨fun q => ?_, h.head⟩
      by_cases hq : q = b
      · subst hq
        simp only [OwnershipMap.setPrev, Function.update_self]
        exact ⟨(h.entry q).next, hv⟩
      · simp only [OwnershipMap.setPrev, Function.update_of_ne hq]
        exact h.entry q

theorem setOwner (h : Links Q m) : Links Q (m.setOwner b owner) := by
  refine ⟨fun q => ?_, h.head⟩
  by_cases hq : q = b
  · subst hq
    simp only [OwnershipMap.setOwner, Function.update_self]
    exact h.entry q
  · simp only [OwnershipMap.setOwner, Function.update_of_ne hq]
    exact h.entry q

theorem lazyInit (h : Links Q m) : Links Q (m.lazyInit r) := by
  rw [OwnershipMap.lazyInit]
  split
  case isTrue => exact (h.setNext (by simp)).setPrev (by simp)
  case isFalse => exact h

theorem addToList (h : Links Q m) (hb : Q b) : Links Q (m.addToList r b) := by
  have start := h.lazyInit (r := r)
  have new : ∀ c, some (ListLink.entry b) = some (.entry c) → Q c := by
    intro c hc
    cases hc
    exact hb
  have linked := (start.setPrev (l := .entry b) (v := some (.head r)) (by simp)).setNext
    (l := .entry b) (start.head r).next
  rw [OwnershipMap.addToList]
  split
  case h_1 => exact (linked.setPrev new).setNext new
  case h_2 => exact linked.setNext new

theorem removeFromList (h : Links Q m) :
    Sat (m.removeFromList b) (fun m' => Links Q m') (fun _ => True) := by
  rw [OwnershipMap.removeFromList]
  split
  case h_1 => exact h
  case h_2 n hn =>
      split
      case h_1 => trivial
      case h_2 p hp =>
          refine (h.setPrev (fun c hc => ?_)).setNext (fun c hc => ?_)
          · exact (h.entry b).prev c (hp.trans hc)
          · exact (h.entry b).next c (hn.trans hc)

end Links

section Loops

variable {unit p size : Nat} {old new owner : CompartmentOwner} {m : OwnershipMap}

/-- A loop over whole blocks whose body changes the owner of its block, together with
an invariant `I` of the map. -/
theorem forEachBlock_sat {body : Nat → OwnershipMap → Result OwnershipMap} {E : Fault → Prop}
    {I : OwnershipMap → Prop} (pos : 0 < unit) (aligned : p % unit = 0)
    (alignedSize : size % unit = 0) (bound : p + size ≤ 2 ^ 48) (start : I m)
    (step : ∀ b m, I m → b * unit + unit ≤ p + size → Sat (body b m) (fun m' =>
      ((m.entries b).owner = old ∧
        ∀ c, (m'.entries c).owner = if c = b then new else (m.entries c).owner) ∧ I m') E) :
    Sat (forEachBlock unit p size body m)
      (fun m' => OwnerUpdate unit p (p + size) old new m m' ∧ I m') E := by
  rw [forEachBlock, u64_of_lt (by omega)]
  refine (loop_total (fun a m' => p ≤ a ∧ a ≤ p + size ∧ a % unit = 0 ∧
    OwnerUpdate unit p a old new m m' ∧ I m') (fun a => p + size - a) ?_
    ⟨Nat.le_refl p, Nat.le_add_right p size, aligned, ?_, start⟩
    (by unfold blockLoopBudget; omega)).mono_post ?_
  · rintro a m' ⟨hp, -, ha, done, kept⟩ hcond
    have hlt : a < p + size := of_decide_eq_true hcond
    have hend := add_le_of_mod ha (add_mod_zero aligned alignedSize) hlt
    have hbase : a / unit * unit = a := Nat.div_mul_cancel (Nat.dvd_of_mod_eq_zero ha)
    rw [u64_of_lt (by omega)]
    refine ⟨by omega, (step (a / unit) m' kept (by omega)).mono_post ?_⟩
    rintro m'' ⟨⟨hold, hnew⟩, kept'⟩
    refine ⟨by omega, hend, add_mod_zero ha (Nat.mod_self unit), ⟨?_, ?_⟩, kept'⟩
    · intro x hx hxa
      by_cases h : x < a
      · exact done.before x hx h
      · have hblock := (div_eq_iff_of_mod pos ha).mpr ⟨Nat.le_of_not_lt h, hxa⟩
        have := done.after x
        rw [if_neg (by omega), getMonzaOwner, hblock, hold] at this
        exact this.symm
    · intro x
      have hblock := div_eq_iff_of_mod (a := x) pos ha
      rw [getMonzaOwner, hnew]
      by_cases h : x / unit = a / unit
      · rw [if_pos h, if_pos (by omega)]
      · rw [if_neg h]
        refine (done.after x).trans ?_
        by_cases h' : p ≤ x ∧ x < a
        · rw [if_pos h', if_pos (by omega)]
        · rw [if_neg h', if_neg (by omega)]
  · refine ⟨fun x hx hxp => by omega, fun x => ?_⟩
    rw [if_neg (by omega)]
  · rintro m' ⟨a, ⟨-, hle, -, done, kept⟩, hcond⟩
    have hge := of_decide_eq_false hcond
    rw [show a = p + size by omega] at done
    exact ⟨done, kept⟩

theorem addMonzaOwner_sat {list : Option CompartmentOwner} {Q : Nat → Prop} (pos : 0 < unit)
    (aligned : p % unit = 0) (alignedSize : size % unit = 0) (bound : p + size ≤ 2 ^ 48)
    (links : Links Q m) (blocks : ∀ b, b * unit + unit ≤ p + size → Q b) :
    Sat (addMonzaOwner unit p size owner list m)
      (fun m' => OwnerUpdate unit p (p + size) .null owner m m' ∧ Links Q m')
      (fun f => f = .kabort) := by
  refine forEachBlock_sat pos aligned alignedSize bound links ?_
  intro b m kept hb
  by_cases h : (m.entries b).owner = .null
  · rw [if_neg (not_not.mpr h)]
    cases list with
    | none => exact ⟨⟨h, fun c => setOwner_owner⟩, kept.setOwner⟩
    | some r =>
        exact ⟨⟨h, fun c => addToList_owner.trans setOwner_owner⟩,
          kept.setOwner.addToList (blocks b hb)⟩
  · rw [if_pos h]
    rfl

theorem removeMonzaOwner_sat {Q : Nat → Prop} (pos : 0 < unit) (aligned : p % unit = 0)
    (alignedSize : size % unit = 0) (bound : p + size ≤ 2 ^ 48) (links : Links Q m) :
    Sat (removeMonzaOwner unit p size owner m)
      (fun m' => OwnerUpdate unit p (p + size) owner .null m m' ∧ Links Q m')
      (fun f => f = .kabort) := by
  refine forEachBlock_sat pos aligned alignedSize bound links ?_
  intro b m kept _
  by_cases h : (m.entries b).owner = owner
  · rw [if_neg (not_not.mpr h)]
    refine (removeFromList_owner.and kept.setOwner.removeFromList).mono_post ?_
    rintro m' ⟨same, kept'⟩
    refine ⟨⟨h, fun c => ?_⟩, kept'⟩
    rw [same, setOwner_owner]
  · rw [if_pos h]
    rfl

end Loops

end OwnershipMap

end Monza
