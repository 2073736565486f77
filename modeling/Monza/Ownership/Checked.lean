import Monza.Ownership.Lists

/-!
# The lists of owned blocks, in both builds

Every range links the blocks it owns into its own list, so who owns a block says which list
it is in. Debug builds check the links after each edit, but the two conditions of
`Base::invariant` are assignments: they write what they should compare. In the lists of owned
blocks they write what is there already, and a debug build does the same as a release build.
-/

namespace Monza

open Outcome

/-- Whether assertions are compiled in. -/
inductive Build where
  | release
  | debug
  deriving DecidableEq, Repr

namespace OwnershipMap

variable {m m' : OwnershipMap} {b c : Nat} {l : ListLink} {v : Option ListLink}
variable {r owner : CompartmentOwner} {listed : Nat → Option CompartmentOwner}
variable {order : List Nat}

/-! ## Debug builds -/

/-- `Base::invariant` with its assertions compiled in. Both assign. A null link would be a
kernel page fault; an assigned pointer is not null, so the assertion itself holds. -/
def invariant (m : OwnershipMap) (l : ListLink) : Result OwnershipMap :=
  match m.links.next l with
  | none => .error .kabort
  | some n =>
    let m := m.setPrev n (some l)
    match m.links.prev l with
    | none => .error .kabort
    | some p => .ok (m.setNext p (some l))

/-- `Head::add`. -/
def addToListIn (build : Build) (m : OwnershipMap) (r : CompartmentOwner) (b : Nat) :
    Result OwnershipMap :=
  match build with
  | .release => .ok (m.addToList r b)
  | .debug => (m.addToList r b).invariant (.entry b)

/-- `Entry::remove`. -/
def removeFromListIn (build : Build) (m : OwnershipMap) (b : Nat) : Result OwnershipMap :=
  match build with
  | .release => m.removeFromList b
  | .debug =>
    match (m.entries b).next with
    | none => .ok m
    | some n =>
      match (m.entries b).prev with
      | none => .error .kabort
      | some p => do
        let m ← ((m.setPrev n (some p)).setNext p (some n)).invariant p
        m.invariant n

/-- The body of the loop in `add_monza_owner`. -/
def addBlockIn (build : Build) (owner : CompartmentOwner)
    (ownerChunkListHead : Option CompartmentOwner) (b : Nat) (m : OwnershipMap) :
    Result OwnershipMap :=
  if (m.entries b).owner ≠ .null then .error .kabort
  else
    let m := m.setOwner b owner
    match ownerChunkListHead with
    | some r => m.addToListIn build r b
    | none => .ok m

/-- The body of the loop in `remove_monza_owner`. -/
def removeBlockIn (build : Build) (owner : CompartmentOwner) (b : Nat) (m : OwnershipMap) :
    Result OwnershipMap :=
  if (m.entries b).owner ≠ owner then .error .kabort
  else (m.setOwner b .null).removeFromListIn build b

/-- `SNMALLOC_ASSERT((size % monza::MIN_OWNERSHIP_SIZE) == 0)`. -/
def assertUnits (build : Build) (unit size : Nat) : Result Unit :=
  if build = .debug ∧ size % unit ≠ 0 then .error .kabort else .ok ()

def addMonzaOwnerIn (build : Build) (unit p size : Nat) (owner : CompartmentOwner)
    (ownerChunkListHead : Option CompartmentOwner) (m : OwnershipMap) : Result OwnershipMap := do
  assertUnits build unit size
  forEachBlock unit p size (addBlockIn build owner ownerChunkListHead) m

def removeMonzaOwnerIn (build : Build) (unit p size : Nat) (owner : CompartmentOwner)
    (m : OwnershipMap) : Result OwnershipMap := do
  assertUnits build unit size
  forEachBlock unit p size (removeBlockIn build owner) m

@[simp] theorem assertUnits_release (unit size : Nat) : assertUnits .release unit size = .ok () :=
  rfl

/-- Without assertions, the functions are those of the release build. -/
theorem addMonzaOwnerIn_release {unit p size : Nat} {owner : CompartmentOwner}
    {ownerChunkListHead : Option CompartmentOwner} :
    addMonzaOwnerIn .release unit p size owner ownerChunkListHead m =
      addMonzaOwner unit p size owner ownerChunkListHead m := by
  rw [addMonzaOwnerIn, assertUnits_release, ok_bind, addMonzaOwner]
  cases ownerChunkListHead <;> rfl

theorem removeMonzaOwnerIn_release {unit p size : Nat} {owner : CompartmentOwner} :
    removeMonzaOwnerIn .release unit p size owner m = removeMonzaOwner unit p size owner m := by
  have body : removeBlockIn .release owner = fun b m =>
      if (m.entries b).owner ≠ owner then .error .kabort
      else (m.setOwner b .null).removeFromList b := rfl
  rw [removeMonzaOwnerIn, assertUnits_release, body, removeMonzaOwner, ok_bind]

theorem setNext_eq_self (h : m.links.next l = v) : m.setNext l v = m := by
  subst h
  cases l <;> simp [setNext, links]

theorem setPrev_eq_self (h : m.links.prev l = v) : m.setPrev l v = m := by
  subst h
  cases l <;> simp [setPrev, links]

/-- On a circle the assertions write what is there. -/
theorem invariant_eq_ok {xs : List ListLink} {head : ListLink}
    (circle : Ring.Circle m.links head xs) (mem : l ∈ head :: xs) : m.invariant l = .ok m := by
  obtain ⟨⟨n, next⟩, p, prev⟩ := circle.joined_of_mem mem
  simp only [invariant, next.1, setPrev_eq_self next.2, prev.2, setNext_eq_self prev.1]

theorem HasList.addToListIn (h : m.HasList r order) (fresh : b ∉ order) (build : Build) :
    m.addToListIn build r b = .ok (m.addToList r b) := by
  cases build with
  | release => rfl
  | debug =>
      rcases h.addToList fresh with circle | ⟨no, -⟩
      · refine invariant_eq_ok circle (List.mem_cons_of_mem _ ?_)
        exact List.mem_map_of_mem List.mem_cons_self
      · cases no

theorem HasList.removeFromListIn (h : m.HasList r order) (mem : b ∈ order) (build : Build) :
    m.removeFromListIn build b = m.removeFromList b := by
  cases build with
  | release => rfl
  | debug =>
      obtain ⟨xs, ys, rfl⟩ := List.append_of_mem mem
      obtain ⟨p, n, prev, next, done, circle, hp, hn⟩ := h.removeFromList
      rw [← links_join] at circle
      simp only [OwnershipMap.removeFromListIn, prev, next, invariant_eq_ok circle hp]
      exact (invariant_eq_ok circle hn).trans done.symm

/-! ## Owned blocks -/

/-- The list that a block is in by its owner. -/
def ownerList (m : OwnershipMap) (b : Nat) : Option CompartmentOwner :=
  if (m.entries b).owner = .null then none else some (m.entries b).owner

/-- The list of every range consists of exactly the blocks it owns. -/
def OwnedLists (m : OwnershipMap) : Prop := m.Lists m.ownerList

theorem ownerList_eq_some (known : r ≠ .null) :
    m.ownerList b = some r ↔ (m.entries b).owner = r := by
  rw [ownerList]
  by_cases free : (m.entries b).owner = .null
  · rw [if_pos free, free]
    exact ⟨fun no => (by cases no), fun no => absurd no.symm known⟩
  · rw [if_neg free, Option.some.injEq]

theorem ownerList_eq_none (free : (m.entries b).owner = .null) : m.ownerList b = none :=
  if_pos free

/-- The lists by owner after the owner of one block has changed. -/
theorem ownerList_update
    (owners : ∀ c, (m'.entries c).owner = if c = b then owner else (m.entries c).owner) :
    m'.ownerList = Function.update m.ownerList b
      (if owner = .null then none else some owner) := by
  funext c
  rw [ownerList, owners c]
  by_cases hc : c = b
  · subst hc
    simp
  · rw [if_neg hc, Function.update_of_ne hc, ownerList]

theorem OwnedLists.empty : OwnedLists .empty := Lists.empty

/-- Lists and owners are all that counts. -/
theorem OwnedLists.setOwner_lists (h : m.OwnedLists) (b : Nat) (owner : CompartmentOwner) :
    (m.setOwner b owner).Lists m.ownerList :=
  h.congr fun _ _ _ => by rw [links_setOwner]; exact ⟨rfl, rfl⟩

/-- A head that is constructed again is in no list. -/
theorem OwnedLists.newHead (h : m.OwnedLists) (unused : ∀ b, (m.entries b).owner ≠ r) :
    (m.newHead r).OwnedLists := by
  have nothing : ∀ b, m.ownerList b ≠ some r := by
    intro b mem
    rw [ownerList] at mem
    split at mem
    · cases mem
    · exact unused b (Option.some.inj mem)
  have unlinked : (m.newHead r).HasList r [] := by
    refine .inr ⟨rfl, ?_⟩
    simp [links, OwnershipMap.newHead]
  refine h.replace (fun b => ?_) unlinked (fun _ _ _ => Iff.rfl) ?_
  · exact ⟨fun no => (by cases no), fun no => absurd no (nothing b)⟩
  · intro q hq a belongs
    cases a with
    | head p =>
        have other : p ≠ r := fun e => hq (belongs.symm.trans e)
        simp [Ring.Links.SameAt, links, OwnershipMap.newHead, other]
    | entry b => exact ⟨rfl, rfl⟩

theorem ownerList_congr (same : ∀ b, (m'.entries b).owner = (m.entries b).owner) :
    m'.ownerList = m.ownerList := by
  funext b
  rw [ownerList, ownerList, same]

theorem OwnedLists.lazyInit (h : m.OwnedLists) : (m.lazyInit r).OwnedLists := by
  rw [OwnedLists, ownerList_congr fun _ => lazyInit_owner]
  exact Lists.lazyInit h

section Blocks

variable {build : Build}

theorem OwnedLists.addBlock (h : m.OwnedLists) (known : owner ≠ .null)
    (done : m.addBlock owner (some owner) b = .ok m') : m'.OwnedLists := by
  obtain ⟨free, done⟩ := guard_eq_ok.mp done
  have free : (m.entries b).owner = .null := not_not.mp free
  rw [← Except.ok.inj done]
  have after := (h.setOwner_lists b owner).addToList (r := owner) (ownerList_eq_none free)
  have owners : ∀ c, (((m.setOwner b owner).addToList owner b).entries c).owner =
      if c = b then owner else (m.entries c).owner :=
    fun c => addToList_owner.trans setOwner_owner
  have lists := ownerList_update owners
  rw [if_neg known] at lists
  rw [OwnedLists, lists]
  exact after

/-- An added block, with its assertions. -/
theorem OwnedLists.addBlockIn (h : m.OwnedLists) :
    m.addBlockIn build owner (some owner) b = m.addBlock owner (some owner) b := by
  rw [OwnershipMap.addBlockIn, OwnershipMap.addBlock]
  by_cases free : (m.entries b).owner = .null
  · rw [if_neg (not_not.mpr free), if_neg (not_not.mpr free)]
    obtain ⟨order, mem, list⟩ := h.setOwner_lists b owner owner
    refine list.addToListIn (fun hb => ?_) build
    rw [mem, ownerList_eq_none free] at hb
    cases hb
  · rw [if_pos free, if_pos free]

/-- A block that its owner removes is in the list of its owner. -/
theorem OwnedLists.removeBlock (h : m.OwnedLists) (known : owner ≠ .null)
    (done : m.removeBlock owner b = .ok m') : m'.OwnedLists := by
  obtain ⟨own, done⟩ := guard_eq_ok.mp done
  have own : (m.entries b).owner = owner := not_not.mp own
  obtain ⟨m'', done', lists⟩ := (h.setOwner_lists b .null).removeFromList
    ((ownerList_eq_some known).mpr own)
  cases done.symm.trans done'
  have owners : ∀ c, (m'.entries c).owner = if c = b then .null else (m.entries c).owner := by
    intro c
    rw [removeFromList_owner.of_ok done c, setOwner_owner]
  have after := ownerList_update owners
  rw [if_pos rfl] at after
  rw [OwnedLists, after]
  exact lists

theorem OwnedLists.removeBlockIn (h : m.OwnedLists) (known : owner ≠ .null) :
    m.removeBlockIn build owner b = m.removeBlock owner b := by
  rw [OwnershipMap.removeBlockIn, OwnershipMap.removeBlock]
  by_cases own : (m.entries b).owner = owner
  · rw [if_neg (not_not.mpr own), if_neg (not_not.mpr own)]
    obtain ⟨order, mem, list⟩ := h.setOwner_lists b .null owner
    exact list.removeFromListIn ((mem b).mpr ((ownerList_eq_some known).mpr own)) build
  · rw [if_pos own, if_pos own]

variable {unit p size : Nat}

/-- Whole units need no rounding. -/
theorem bound_of_units (pos : 0 < unit) (alignedSize : size % unit = 0)
    (bound : p + size < 2 ^ 64) : p + (size + (unit - 1)) / unit * unit < 2 ^ 64 := by
  obtain ⟨k, rfl⟩ := Nat.dvd_of_mod_eq_zero alignedSize
  rw [Nat.mul_add_div pos, Nat.div_eq_of_lt (by omega), Nat.add_zero, Nat.mul_comm k]
  exact bound

theorem assertUnits_eq_ok (alignedSize : size % unit = 0) : assertUnits build unit size = .ok () :=
  if_neg fun no => no.2 alignedSize

theorem OwnedLists.addMonzaOwnerIn (h : m.OwnedLists) (known : owner ≠ .null) (pos : 0 < unit)
    (bound : p + size < 2 ^ 64) (alignedSize : size % unit = 0) :
    m.addMonzaOwnerIn build unit p size owner (some owner) =
      m.addMonzaOwner unit p size owner (some owner) := by
  rw [OwnershipMap.addMonzaOwnerIn, assertUnits_eq_ok alignedSize, addMonzaOwner_eq,
    forEachBlock_eq_foldlM pos (bound_of_units pos alignedSize bound),
    forEachBlock_eq_foldlM pos (bound_of_units pos alignedSize bound)]
  exact foldlM_congr OwnedLists (fun _ _ lists => lists.addBlockIn)
    (fun _ _ _ lists done => lists.addBlock known done) h

theorem OwnedLists.addMonzaOwner (h : m.OwnedLists) (known : owner ≠ .null) (pos : 0 < unit)
    (bound : p + size < 2 ^ 64) (alignedSize : size % unit = 0)
    (done : m.addMonzaOwner unit p size owner (some owner) = .ok m') : m'.OwnedLists := by
  rw [addMonzaOwner_eq,
    forEachBlock_eq_foldlM pos (bound_of_units pos alignedSize bound)] at done
  exact foldlM_rule (fun _ m => m.OwnedLists) done h
    fun _ _ _ _ _ _ _ lists done => lists.addBlock known done

theorem OwnedLists.removeMonzaOwnerIn (h : m.OwnedLists) (known : owner ≠ .null) (pos : 0 < unit)
    (bound : p + size < 2 ^ 64) (alignedSize : size % unit = 0) :
    m.removeMonzaOwnerIn build unit p size owner = m.removeMonzaOwner unit p size owner := by
  rw [OwnershipMap.removeMonzaOwnerIn, assertUnits_eq_ok alignedSize, removeMonzaOwner_eq,
    forEachBlock_eq_foldlM pos (bound_of_units pos alignedSize bound),
    forEachBlock_eq_foldlM pos (bound_of_units pos alignedSize bound)]
  exact foldlM_congr OwnedLists (fun _ _ lists => lists.removeBlockIn known)
    (fun _ _ _ lists done => lists.removeBlock known done) h

theorem OwnedLists.removeMonzaOwner (h : m.OwnedLists) (known : owner ≠ .null) (pos : 0 < unit)
    (bound : p + size < 2 ^ 64) (alignedSize : size % unit = 0)
    (done : m.removeMonzaOwner unit p size owner = .ok m') : m'.OwnedLists := by
  rw [removeMonzaOwner_eq,
    forEachBlock_eq_foldlM pos (bound_of_units pos alignedSize bound)] at done
  exact foldlM_rule (fun _ m => m.OwnedLists) done h
    fun _ _ _ _ _ _ _ lists done => lists.removeBlock known done

/-- A call for one unit is one iteration. -/
theorem removeMonzaOwner_unit (pos : 0 < unit) (bound : b * unit + unit < 2 ^ 64) :
    m.removeMonzaOwner unit (b * unit) unit owner = m.removeBlock owner b := by
  rw [removeMonzaOwner_eq,
    forEachBlock_eq_foldlM pos (bound_of_units pos (Nat.mod_self unit) bound)]
  have one : (unit + (unit - 1)) / unit = 1 := by
    rw [Nat.add_div_left _ pos, Nat.div_eq_of_lt (by omega)]
  have only : blocks unit (b * unit) unit = [b] := by
    rw [blocks, one, Nat.mul_div_cancel b pos]
    rfl
  rw [only, List.foldlM_cons]
  exact bind_pure (m.removeBlock owner b)

/-- Clearing the owner of a block a second time changes nothing that counts. -/
theorem OwnedLists.clearOwner (h : m.OwnedLists) (free : (m.entries b).owner = .null) :
    (m.setOwner b .null).OwnedLists := by
  have owners : ∀ c, ((m.setOwner b .null).entries c).owner =
      if c = b then .null else (m.entries c).owner := fun _ => setOwner_owner
  have lists := ownerList_update owners
  rw [if_pos rfl, Function.update_eq_self_iff.mpr (ownerList_eq_none free).symm] at lists
  rw [OwnedLists, lists]
  exact h.setOwner_lists b .null

/-- A range that gives up the first block of its list. -/
theorem OwnedLists.removeFirst {rest : List Nat} (h : m.OwnedLists) (known : owner ≠ .null)
    (circle : Ring.Circle m.links (.head owner) ((b :: rest).map .entry))
    (mem : ∀ c, c ∈ b :: rest ↔ (m.entries c).owner = owner) :
    ∃ m', m.removeBlock owner b = .ok m' ∧ m'.OwnedLists ∧
      (∀ c, (m'.entries c).owner = if c = b then .null else (m.entries c).owner) ∧
      Ring.Circle m'.links (.head owner) (rest.map .entry) ∧
      ∀ r, r ≠ owner → ∀ a, Belongs m.ownerList r a → m.links.SameAt m'.links a := by
  have own : (m.entries b).owner = owner := (mem b).mp List.mem_cons_self
  have list : (m.setOwner b .null).HasList owner ([] ++ b :: rest) :=
    .inl (links_setOwner (m := m) ▸ circle)
  obtain ⟨p, n, -, -, removed, circle', hp, hn⟩ := list.removeFromList
  rw [links_setOwner] at circle'
  have done := (if_neg (not_not.mpr own) : m.removeBlock owner b = _).trans removed
  have nodes : ∀ {a}, a ∈ ListLink.head owner :: rest.map .entry →
      Belongs m.ownerList owner a := by
    intro a ha
    cases a with
    | head q =>
        rcases List.mem_cons.mp ha with same | no
        · exact ListLink.head.inj same
        · simp at no
    | entry c =>
        apply (ownerList_eq_some known).mpr
        apply (mem c).mp
        apply List.mem_cons_of_mem
        simpa using ha
  refine ⟨_, done, h.removeBlock known done, ?_, ?_, ?_⟩
  · intro c
    rw [removeFromList_owner.of_ok removed c, setOwner_owner]
  · rw [links_join, links_setOwner]
    exact circle'
  · intro r other a belongs
    rw [links_join, links_setOwner]
    apply Ring.Links.sameAt_join
    · rintro rfl
      exact absurd (belongs.unique (nodes hp)) other
    · rintro rfl
      exact absurd (belongs.unique (nodes hn)) other

end Blocks

end OwnershipMap

end Monza
