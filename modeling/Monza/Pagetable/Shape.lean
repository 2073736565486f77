import Monza.Pagetable.Table

/-!
# Page tables as radix trees

An inner node of a page table holds only zero entries and entries written by
`set_next_level`, so the tables are radix trees in the sense of the library.
Every call of `add_to_pagetable` keeps this shape, whatever its arguments: the
addresses it is given only select slots. It takes no more nodes from the allocator than the
tree lacks for being full, so it is refused one only by an allocator that could not fill the tree.
-/

namespace Monza

open Outcome Radix

/-- Inner entries are empty or lead to a node of the allocator. They were written
by calls of the kinds `K`, for the kernel or for a compartment. -/
def tableCoding (K : Set Bool) : Coding Nat PagetableEntry where
  child e := if e.nextLevel = 0 then none else some e.nextLevel
  inner e := e = .null ∨ ∃ isKernel ptr type, isKernel ∈ K ∧ ptr ≠ 0 ∧ ptr % 4096 = 0 ∧
    ptr < 2 ^ 52 ∧ e = .setNextLevel isKernel ptr type
  zero := .null
  child_zero := by simp
  inner_zero := Or.inl rfl

/-- The slots that the walk for an address selects, from the lowest level up. -/
def addressPath (ps : PageSize) (address : Nat) : Nat → Nat :=
  fun d => pagetableIndex address (ps.lowestLevel + d)

/-- The nodes that a table lacks below its root. Irreducible, since no proof should go over the
slots one by one. -/
@[irreducible] def vacant (K : Set Bool) (s : PagetableStore) (d root : Nat) : Nat :=
  vacancies (tableCoding K) (List.range pagetableEntryCount) s.nodes d root

/-- The only failure of a bounded page table operation: the allocator has no node left, and it
did not have as many as the table lacked when the operation began. -/
def RefusedAlloc (A : NodeAllocator) (K : Set Bool) (d root : Nat) (s : PagetableStore)
    (f : Fault) : Prop :=
  f = .outOfMemory ∧ ¬ A.Room K (vacant K s d root) s.live

/-- Nodes are only taken for vacancies: an allocator that could fill the tree and answer `k`
requests more still can. -/
def Fills (A : NodeAllocator) (K : Set Bool) (d root : Nat) (s t : PagetableStore) : Prop :=
  ∀ k, A.Room K (vacant K s d root + k) s.live → A.Room K (vacant K t d root + k) t.live

variable {ps : PageSize} {A : NodeAllocator} {isKernel : Bool} {K : Set Bool}
variable {s t : PagetableStore} {d root index : Nat} {N : Set Nat}

@[simp] theorem tableCoding_zero : (tableCoding K).zero = .null := rfl

theorem tableCoding_child_eq_none {e : PagetableEntry} :
    (tableCoding K).child e = none ↔ e.nextLevel = 0 := by
  simp [tableCoding]

theorem tableCoding_child_eq_some {e : PagetableEntry} {r : Nat} :
    (tableCoding K).child e = some r ↔ e.nextLevel ≠ 0 ∧ e.nextLevel = r := by
  by_cases h : e.nextLevel = 0 <;> simp [tableCoding, h]

/-- No inner entry is taken for a large mapping, in particular not the first. -/
theorem not_isLargeMapping_of_inner {e : PagetableEntry} (h : (tableCoding K).inner e) :
    e.isLargeMapping = false := by
  rcases h with rfl | ⟨isKernel, ptr, type, -, -, aligned, -, rfl⟩
  · decide
  · change PagetableEntry.has _ ptePagesize = false
    rw [PagetableEntry.has_setNextLevel aligned (by decide)]
    cases isKernel <;> cases type <;> decide

namespace Fills

variable {u : PagetableStore}

theorem refl (s : PagetableStore) : Fills A K d root s s := fun _ room => room

theorem trans (first : Fills A K d root s t) (second : Fills A K d root t u) :
    Fills A K d root s u := fun k room => second k (first k room)

/-- What cannot be served later could not have been served before. -/
theorem refused (h : Fills A K d root s t) {f : Fault} (refused : RefusedAlloc A K d root t f) :
    RefusedAlloc A K d root s f := ⟨refused.1, fun room => refused.2 (h 0 room)⟩

end Fills

/-- A freshly allocated node below an empty slot of a tree. -/
theorem nextRootOrAlloc_sat {type : PagetableType} (kind : isKernel ∈ K)
    (tree : Tree (tableCoding K) s.nodes (d + 1) root N)
    (inUse : ∀ a ∈ N, a ∈ s.live) (slot : index < pagetableEntryCount) :
    Sat (nextRootOrAlloc A isKernel root index type s)
      (fun result => ∃ M, Tree (tableCoding K) result.2.nodes (d + 1) root M ∧
        Grown s result.2 N M ∧
        (tableCoding K).child (result.2.nodes root index) = some result.1 ∧
        (∀ path, lookup (tableCoding K) result.2.nodes path (d + 1) root =
          lookup (tableCoding K) s.nodes path (d + 1) root) ∧
        Fills A K (d + 1) root s result.2)
      (RefusedAlloc A K (d + 1) root s) := by
  have slot := List.mem_range.mpr slot
  rw [nextRootOrAlloc]
  by_cases hnext : (s.nodes root index).nextLevel = 0
  · have empty := tableCoding_child_eq_none (K := K).mpr hnext
    rw [if_pos hnext, allocPagetableNode]
    cases halloc : A.alloc isKernel s.live with
    | none =>
        refine ⟨rfl, fun room => ?_⟩
        have lacking : 1 ≤ vacant K s (d + 1) root := by
          rw [vacant]
          exact vacancies_of_empty empty slot
        obtain ⟨k, lacks⟩ := Nat.exists_eq_add_of_le' lacking
        rw [lacks] at room
        obtain ⟨node, answer, -⟩ := room isKernel kind
        rw [halloc] at answer
        cases answer
    | some node =>
        have leads : (tableCoding K).child
            (.setNextLevel isKernel node type) = some node := by
          rw [tableCoding_child_eq_some,
            PagetableEntry.nextLevel_setNextLevel (A.aligned halloc) (A.below halloc)]
          exact ⟨A.nonnull halloc, rfl⟩
        have inner : (tableCoding K).inner (.setNextLevel isKernel node type) :=
          Or.inr ⟨isKernel, node, type, kind, A.nonnull halloc, A.aligned halloc,
            A.below halloc, rfl⟩
        obtain ⟨tree', grown, same, lacks⟩ := tree.install inUse empty (A.fresh halloc) inner leads
        refine ⟨_, tree', grown, ?_, same, fun k room => ?_⟩
        · rw [Store.write_self]
          exact leads
        · rw [vacant, lacks _ List.nodup_range slot, Nat.add_right_comm] at room
          obtain ⟨other, answer, rest⟩ := room isKernel kind
          obtain rfl := Option.some.inj (halloc.symm.trans answer)
          rw [vacant]
          exact rest
  · rw [if_neg hnext]
    exact ⟨N, tree, Grown.refl inUse, tableCoding_child_eq_some.mpr ⟨hnext, rfl⟩,
      fun _ => rfl, .refl s⟩

/-- How an update of the node below one slot shows in the tree above. -/
structure Descent (K : Set Bool) (d root index r : Nat) (s t : PagetableStore) : Prop where
  before : ∀ path : Nat → Nat, path (d + 1) = index →
    lookup (tableCoding K) s.nodes path (d + 1) root =
      lookup (tableCoding K) s.nodes path d r
  after : ∀ path : Nat → Nat, path (d + 1) = index →
    lookup (tableCoding K) t.nodes path (d + 1) root =
      lookup (tableCoding K) t.nodes path d r
  elsewhere : ∀ path : Nat → Nat, path (d + 1) ≠ index →
    lookup (tableCoding K) t.nodes path (d + 1) root =
      lookup (tableCoding K) s.nodes path (d + 1) root
  vacant : ∃ k, vacant K s (d + 1) root = vacant K s d r + k ∧
    vacant K t (d + 1) root = vacant K t d r + k

theorem Descent.fills {r : Nat} (h : Descent K d root index r s t) (below : Fills A K d r s t) :
    Fills A K (d + 1) root s t := by
  obtain ⟨k, before, after⟩ := h.vacant
  intro n room
  rw [before, Nat.add_assoc] at room
  rw [after, Nat.add_assoc]
  exact below (k + n) room

/-- A refusal below a slot is one of the whole. -/
theorem RefusedAlloc.of_child {r : Nat} {f : Fault} (h : RefusedAlloc A K d r s f)
    (child : (tableCoding K).child (s.nodes root index) = some r)
    (slot : index < pagetableEntryCount) : RefusedAlloc A K (d + 1) root s f := by
  have less : vacant K s d r ≤ vacant K s (d + 1) root := by
    rw [vacant, vacant]
    exact vacancies_of_child child (List.mem_range.mpr slot)
  obtain ⟨k, more⟩ := Nat.exists_eq_add_of_le less
  refine ⟨h.1, fun room => h.2 ?_⟩
  rw [more] at room
  exact room.of_add

/-- Verify an operation on the node below a slot once, use it at the tree above. -/
theorem descend_sat {E : Fault → Prop} {f : PagetableStore → Result PagetableStore} {r : Nat}
    {Q : PagetableStore → Prop}
    (tree : Tree (tableCoding K) s.nodes (d + 1) root N)
    (inUse : ∀ a ∈ N, a ∈ s.live)
    (child : (tableCoding K).child (s.nodes root index) = some r)
    (slot : index < pagetableEntryCount)
    (operation : ∀ B, Tree (tableCoding K) s.nodes d r B → (∀ a ∈ B, a ∈ s.live) →
      Sat (f s) (fun t => ∃ M, Tree (tableCoding K) t.nodes d r M ∧
        Grown s t B M ∧ Q t) E) :
    Sat (f s) (fun t => ∃ M, Tree (tableCoding K) t.nodes (d + 1) root M ∧
      Grown s t N M ∧ Descent K d root index r s t ∧ Q t) E := by
  obtain ⟨B, below, inUseBelow, graft⟩ := tree.descend inUse child
  refine (operation B below inUseBelow).mono_post ?_
  rintro t ⟨M, treeBelow, grownBelow, post⟩
  have grafted := graft t M treeBelow grownBelow
  refine ⟨N ∪ M, grafted.tree, grafted.grown, ⟨?_, ?_, grafted.elsewhere, ?_⟩, post⟩
  · intro path hpath
    rw [lookup, hpath, child]
  · intro path hpath
    rw [lookup, hpath, grafted.child]
  · simp only [vacant]
    exact grafted.vacant _ List.nodup_range (List.mem_range.mpr slot)

/-- A tree that grows from another one and takes nodes only for vacancies. -/
def Filled (A : NodeAllocator) (K : Set Bool) (d root : Nat) (s : PagetableStore) (N : Set Nat)
    (t : PagetableStore) : Prop :=
  ∃ M, Tree (tableCoding K) t.nodes d root M ∧ Grown s t N M ∧ Fills A K d root s t

/-- An operation on the node below a slot fills the tree above. -/
theorem descend_filled {f : PagetableStore → Result PagetableStore} {r : Nat}
    (tree : Tree (tableCoding K) s.nodes (d + 1) root N) (inUse : ∀ a ∈ N, a ∈ s.live)
    (child : (tableCoding K).child (s.nodes root index) = some r)
    (slot : index < pagetableEntryCount)
    (operation : ∀ B, Tree (tableCoding K) s.nodes d r B → (∀ a ∈ B, a ∈ s.live) →
      Sat (f s) (Filled A K d r s B) (fun f => f = .outOfMemory → RefusedAlloc A K d r s f)) :
    Sat (f s) (Filled A K (d + 1) root s N)
      (fun f => f = .outOfMemory → RefusedAlloc A K (d + 1) root s f) := by
  refine (descend_sat tree inUse child slot operation).mono ?_
    (fun f refused oom => (refused oom).of_child child slot)
  rintro t ⟨M, treeM, grownM, descent, fills⟩
  exact ⟨M, treeM, grownM, descent.fills fills⟩

/-- Leaves are written without the allocator. -/
theorem loop_leaves_filled {cond : Nat → Bool} {next index : Nat → Nat}
    {e : Nat → PagetableEntry} {fuel start : Nat} (inUse : root ∈ s.live) :
    Sat (loop .diverge cond next (fun a t => .ok (t.write root (index a) (e a))) fuel start s)
      (Filled A K 0 root s {root}) (fun f => f = .outOfMemory → RefusedAlloc A K 0 root s f) := by
  refine (loop_sat (fun _ t => Grown s t {root} {root} ∧ t.live = s.live)
    (by intro oom; cases oom) ?_
    ⟨Grown.refl (by rintro a rfl; exact inUse), rfl⟩).mono_post ?_
  · rintro a t ⟨grown, live⟩ _
    exact ⟨grown.trans (Tree.write_leaf (c := tableCoding K) _ _ (grown.live root inUse)).2, live⟩
  · rintro t ⟨_, ⟨grown, live⟩, _⟩
    refine ⟨{root}, rfl, grown, fun k room => ?_⟩
    rw [vacant] at room ⊢
    rw [live]
    exact room

/-- A loop whose rounds fill the tree fills it. -/
theorem loop_filled {cond : Nat → Bool} {next : Nat → Nat}
    {body : Nat → PagetableStore → Result PagetableStore} {fuel start : Nat}
    (tree : Tree (tableCoding K) s.nodes d root N) (inUse : ∀ a ∈ N, a ∈ s.live)
    (round : ∀ a t M, Tree (tableCoding K) t.nodes d root M → (∀ a ∈ M, a ∈ t.live) →
      Sat (body a t) (Filled A K d root t M)
        (fun f => f = .outOfMemory → RefusedAlloc A K d root t f)) :
    Sat (loop .diverge cond next body fuel start s) (Filled A K d root s N)
      (fun f => f = .outOfMemory → RefusedAlloc A K d root s f) := by
  refine (loop_sat (fun _ => Filled A K d root s N) (by intro oom; cases oom) ?_
    ⟨N, tree, Grown.refl inUse, .refl s⟩).mono_post fun t ⟨_, filled, _⟩ => filled
  rintro a t ⟨M, treeM, grownM, fillsM⟩ _
  refine (round a t M treeM grownM.owned).mono ?_ fun f refused oom => fillsM.refused (refused oom)
  rintro u ⟨L, treeL, grownL, fillsL⟩
  exact ⟨L, treeL, grownM.trans grownL, fillsM.trans fillsL⟩

/-- Adding keeps the tree shape for all arguments, aligned or not and however
far the range reaches. -/
theorem addToPagetable_shape {base size : Nat} {perm : PagetablePermission}
    {type : PagetableType} (kind : isKernel ∈ K) (tree : Tree (tableCoding K) s.nodes d root N)
    (inUse : ∀ a ∈ N, a ∈ s.live) :
    Sat (addToPagetable ps A isKernel (ps.lowestLevel + d) root base size perm type s)
      (Filled A K d root s N) (fun f => f = .outOfMemory → RefusedAlloc A K d root s f) := by
  induction d generalizing root base size type s N with
  | zero =>
      rw [show N = {root} from tree] at inUse ⊢
      rw [Nat.add_zero, addToPagetable_lowest]
      exact loop_leaves_filled (inUse root rfl)
  | succ d ih =>
      rw [← Nat.add_assoc, addToPagetable_above (Nat.le_add_right _ _)]
      refine loop_filled tree inUse fun addr t M treeM inUseM => ?_
      have slot := pagetableIndex_lt addr (ps.lowestLevel + d + 1)
      refine ((nextRootOrAlloc_sat kind treeM inUseM slot).mono (fun _ h => h)
        fun f refused (_ : f = .outOfMemory) => refused).bind ?_
      rintro ⟨r, u⟩ ⟨B, treeB, grownB, child, -, fillsB⟩
      refine (descend_filled treeB grownB.owned child slot fun L treeL inUseL =>
        ih treeL inUseL).mono ?_ fun f refused oom => fillsB.refused (refused oom)
      rintro v ⟨L, treeL, grownL, fillsL⟩
      exact ⟨L, treeL, grownB.trans grownL, fillsB.trans fillsL⟩

theorem removeFromPagetable_shape {base size : Nat}
    (tree : Tree (tableCoding K) s.nodes d root N) (inUse : ∀ a ∈ N, a ∈ s.live) :
    Sat (removeFromPagetable ps (ps.lowestLevel + d) root base size s)
      (Filled A K d root s N) (fun f => f = .outOfMemory → RefusedAlloc A K d root s f) := by
  induction d generalizing root base size s N with
  | zero =>
      rw [show N = {root} from tree] at inUse ⊢
      rw [Nat.add_zero, removeFromPagetable_lowest]
      exact loop_leaves_filled (inUse root rfl)
  | succ d ih =>
      rw [← Nat.add_assoc, removeFromPagetable_above (Nat.le_add_right _ _)]
      refine loop_filled tree inUse fun addr t M treeM inUseM => ?_
      by_cases empty : (t.nodes root (pagetableIndex addr (ps.lowestLevel + d + 1))).nextLevel = 0
      · rw [if_pos empty]
        exact ⟨M, treeM, Grown.refl inUseM, .refl t⟩
      · rw [if_neg empty]
        exact descend_filled treeM inUseM (tableCoding_child_eq_some.mpr ⟨empty, rfl⟩)
          (pagetableIndex_lt _ _) fun L treeL inUseL => ih treeL inUseL

/-- Looking an entry up follows the radix path of the address. -/
theorem getPagetableEntry_eq_lookup (tree : Tree (tableCoding K) s.nodes d root N)
    (hroot : root ≠ 0) (address : Nat) :
    getPagetableEntry ps s root (ps.lowestLevel + d) address =
      lookup (tableCoding K) s.nodes (addressPath ps address) d root := by
  induction d generalizing root N with
  | zero => exact getPagetableEntry_lowest hroot
  | succ d ih =>
      rw [← Nat.add_assoc, getPagetableEntry_above hroot (Nat.le_add_right _ _)
        (not_isLargeMapping_of_inner (tree.inner 0)), lookup]
      change getPagetableEntry ps s (s.nodes root (addressPath ps address (d + 1))).nextLevel
        (ps.lowestLevel + d) address = _
      cases hc : (tableCoding K).child
          (s.nodes root (addressPath ps address (d + 1))) with
      | none =>
          rw [tableCoding_child_eq_none.mp hc, getPagetableEntry, if_pos rfl]
          rfl
      | some r =>
          obtain ⟨C, slots⟩ := tree
          obtain ⟨hr, same⟩ := tableCoding_child_eq_some.mp hc
          rw [same] at hr ⊢
          exact ih (slots.below _ r hc) hr

end Monza
