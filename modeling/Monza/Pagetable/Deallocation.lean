import Monza.Pagetable.Setup

/-!
# The nodes that a table takes and the nodes that are freed

A compartment table takes its nodes one by one from the allocator, the root first. When it is
deallocated, the walk leaves out what is behind a persistent entry. But the entries that
`create_compartment_pagetable` makes are persistent, and the nodes behind them were allocated
for this table alone: they are freed only if there are none (`all_nodes_freed_iff`).
-/

namespace Monza

open Outcome Radix

/-- The next node of an entry that the deallocation follows. -/
def PagetableEntry.followed (e : PagetableEntry) : Option Nat :=
  if e.isPersistent then none else if e.nextLevel = 0 then none else some e.nextLevel

/-- The calls of `free` in a deallocation, in their order. -/
def freedNodes (ps : PageSize) (root : Nat) (s : PagetableStore) : List Nat :=
  postOrder PagetableEntry.followed (List.range pagetableEntryCount) s.nodes ps.topDepth root

/-- The nodes that were allocated since an earlier state. -/
def allocatedSince (s t : PagetableStore) : List Nat :=
  t.live.take (t.live.length - s.live.length)

/-- A call of the compartment interface. -/
inductive CompartmentCall where
  | add (base size : Nat) (perm : PagetablePermission)
  | remove (base size : Nat)
  deriving DecidableEq, Repr

def CompartmentCall.run (ps : PageSize) (A : NodeAllocator) (kernelPagetable root : Nat) :
    CompartmentCall → PagetableStore → Result PagetableStore
  | add base size perm, s => addToCompartmentPagetable ps A root base size perm s
  | remove base size, s => removeFromCompartmentPagetable ps kernelPagetable root base size s

variable {ps : PageSize} {A : NodeAllocator} {T : Set PagetableType} {type : PagetableType}
variable {s t u : PagetableStore} {d root index base size : Nat} {N M L : Set Nat}
variable {perm : PagetablePermission}

/-! ## The walk -/

theorem foldl_free_nodes {l : List Nat} : (l.foldl Store.free s).nodes = s.nodes := by
  induction l generalizing s with
  | nil => rfl
  | cons a l ih =>
      rw [List.foldl_cons, ih]
      rfl

theorem deallocatePagetable_lowest :
    deallocatePagetable ps ps.lowestLevel root s = s.free root := by
  cases ps with
  | kib4 => exact deallocatePagetable.eq_1 ..
  | mib2 => exact (deallocatePagetable.eq_2 ..).trans (if_pos rfl)

theorem deallocatePagetable_above {level : Nat} (h : ps.lowestLevel ≤ level) :
    deallocatePagetable ps (level + 1) root s =
      ((deallocatedBelow root s).foldl (fun s nextRoot =>
        deallocatePagetable ps level nextRoot s) s).free root := by
  rw [deallocatePagetable, if_neg (by omega)]

/-- The nodes below a node, slot by slot. -/
theorem flatMap_deallocatedBelow (f : Nat → List Nat) : (deallocatedBelow root s).flatMap f =
    (List.range pagetableEntryCount).flatMap fun i => (s.nodes root i).followed.elim [] f := by
  have below : deallocatedBelow root s =
      ((List.range pagetableEntryCount).map (s.nodes root)).filterMap PagetableEntry.followed :=
    rfl
  rw [below]
  induction List.range pagetableEntryCount with
  | nil => rfl
  | cons i slots ih =>
      rw [List.map_cons, List.filterMap_cons, List.flatMap_cons, ← ih]
      cases (s.nodes root i).followed with
      | none => rfl
      | some r => rfl

/-- Freeing a node changes no entry, so the walk may look at them all beforehand. -/
theorem deallocatePagetable_eq : deallocatePagetable ps (ps.lowestLevel + d) root s =
    (postOrder PagetableEntry.followed (List.range pagetableEntryCount) s.nodes d root).foldl
      Store.free s := by
  induction d generalizing root s with
  | zero => exact deallocatePagetable_lowest
  | succ d ih =>
      have all : ∀ (l : List Nat) (u : PagetableStore), u.nodes = s.nodes →
          l.foldl (fun s r => deallocatePagetable ps (ps.lowestLevel + d) r s) u =
            (l.flatMap (postOrder PagetableEntry.followed (List.range pagetableEntryCount)
              s.nodes d)).foldl Store.free u := by
        intro l
        induction l with
        | nil => exact fun u _ => rfl
        | cons r l ihl =>
            intro u same
            rw [List.foldl_cons, List.flatMap_cons, List.foldl_append, ih, same]
            exact ihl _ (foldl_free_nodes.trans same)
      rw [← Nat.add_assoc, deallocatePagetable_above (Nat.le_add_right _ _), all _ s rfl,
        flatMap_deallocatedBelow, postOrder, List.foldl_append, List.foldl_cons, List.foldl_nil]

/-- What `deallocate_compartment_pagetable` does is to free these nodes. -/
theorem deallocateCompartmentPagetable_eq :
    deallocateCompartmentPagetable ps root s = (freedNodes ps root s).foldl Store.free s := by
  rw [deallocateCompartmentPagetable, freedNodes, ← ps.lowestLevel_add_topDepth]
  exact deallocatePagetable_eq

/-! ## The nodes of a table -/

/-- Inner entries are empty or lead to a node of the allocator, under one of some types. -/
def typedCoding (T : Set PagetableType) : Coding Nat PagetableEntry where
  child := (tableCoding {false}).child
  inner e := e = .null ∨ ∃ ptr type, type ∈ T ∧ ptr ≠ 0 ∧ ptr % 4096 = 0 ∧ ptr < 2 ^ 52 ∧
    e = .setNextLevel false ptr type
  zero := .null
  child_zero := (tableCoding {false}).child_zero
  inner_zero := Or.inl rfl

theorem typedCoding_child_eq_none {e : PagetableEntry} :
    (typedCoding T).child e = none ↔ e.nextLevel = 0 :=
  tableCoding_child_eq_none (K := {false})

theorem typedCoding_child_eq_some {e : PagetableEntry} {r : Nat} :
    (typedCoding T).child e = some r ↔ e.nextLevel ≠ 0 ∧ e.nextLevel = r :=
  tableCoding_child_eq_some (K := {false})

/-- The walk follows no entry that leads nowhere. -/
theorem child_of_followed {e : PagetableEntry} {r : Nat} (h : e.followed = some r) :
    (typedCoding T).child e = some r := by
  rw [PagetableEntry.followed] at h
  split at h
  next => cases h
  next => exact h

/-- Nodes have 512 entries. -/
def Clean (nodes : Nat → Nat → PagetableEntry) (N : Set Nat) : Prop :=
  ∀ a ∈ N, ∀ i, pagetableEntryCount ≤ i → nodes a i = .null

/-- A table that has grown from the nodes `N` to the nodes `M`, by exactly what was allocated. -/
structure Extends (T : Set PagetableType) (d root : Nat) (s t : PagetableStore) (N M : Set Nat) :
    Prop where
  tree : Tree (typedCoding T) t.nodes d root M
  grown : Grown s t N M
  clean : Clean t.nodes M
  taken : ∃ fresh : List Nat, t.live = fresh ++ s.live ∧ fresh.Nodup ∧
    (∀ a ∈ fresh, a ∉ s.live) ∧ ∀ a, a ∈ M ↔ a ∈ N ∨ a ∈ fresh

/-- The entries of a node are kept, except that empty ones may lead on under a type. -/
def RootKept (type : PagetableType) (s t : PagetableStore) (root : Nat) : Prop :=
  ∀ i, t.nodes root i = s.nodes root i ∨ (s.nodes root i).nextLevel = 0 ∧
    ∃ ptr, ptr ≠ 0 ∧ ptr % 4096 = 0 ∧ ptr < 2 ^ 52 ∧
      t.nodes root i = .setNextLevel false ptr type

theorem RootKept.of_eq (same : t.nodes root = s.nodes root) : RootKept type s t root :=
  fun i => .inl (congrFun same i)

theorem RootKept.trans (first : RootKept type s t root) (second : RootKept type t u root) :
    RootKept type s u root := by
  intro i
  rcases first i with same | ⟨empty, ptr, nonnull, aligned, below, set⟩
  · rw [← same]
    exact second i
  · rcases second i with same | ⟨no, -⟩
    · exact .inr ⟨empty, ptr, nonnull, aligned, below, same.trans set⟩
    · rw [set, PagetableEntry.nextLevel_setNextLevel aligned below] at no
      exact absurd no nonnull

/-- What leads on stays. -/
theorem RootKept.child (h : RootKept type s t root) {i : Nat}
    (leads : (s.nodes root i).nextLevel ≠ 0) : t.nodes root i = s.nodes root i :=
  (h i).resolve_right fun no => leads no.1

theorem Extends.refl (tree : Tree (typedCoding T) s.nodes d root N) (inUse : ∀ a ∈ N, a ∈ s.live)
    (clean : Clean s.nodes N) : Extends T d root s s N N :=
  ⟨tree, Grown.refl inUse, clean, [], rfl, List.nodup_nil, by simp, by simp⟩

theorem Extends.trans (first : Extends T d root s t N M) (second : Extends T d root t u M L) :
    Extends T d root s u N L := by
  obtain ⟨fresh, live, distinct, unused, mem⟩ := first.taken
  obtain ⟨fresh', live', distinct', unused', mem'⟩ := second.taken
  rw [live] at unused'
  refine ⟨second.tree, first.grown.trans second.grown, second.clean, fresh' ++ fresh, ?_,
    List.nodup_append.mpr ⟨distinct', distinct, ?_⟩, ?_, ?_⟩
  · rw [live', live, List.append_assoc]
  · rintro a later b earlier rfl
    exact unused' a later (List.mem_append_left _ earlier)
  · intro a ha
    rcases List.mem_append.mp ha with later | earlier
    · exact fun old => unused' a later (List.mem_append_right _ old)
    · exact unused a earlier
  · intro a
    rw [mem', mem, List.mem_append, or_assoc]
    exact or_congr_right or_comm

/-- A new node below an empty slot, or the node that is there. -/
theorem nextRootOrAlloc_extends (ofType : type ∈ T)
    (tree : Tree (typedCoding T) s.nodes (d + 1) root N) (inUse : ∀ a ∈ N, a ∈ s.live)
    (clean : Clean s.nodes N) (inside : index < pagetableEntryCount) :
    Sat (nextRootOrAlloc A false root index type s)
      (fun result => ∃ M, Extends T (d + 1) root s result.2 N M ∧
        (typedCoding T).child (result.2.nodes root index) = some result.1 ∧
        RootKept type s result.2 root)
      (fun _ => True) := by
  rw [nextRootOrAlloc]
  by_cases empty : (s.nodes root index).nextLevel = 0
  · rw [if_pos empty, allocPagetableNode]
    cases halloc : A.alloc false s.live with
    | none => trivial
    | some node =>
        have unused := A.fresh halloc
        have notRoot : root ≠ node := fun same => unused (same ▸ inUse root tree.root_mem)
        have leads : (typedCoding T).child (.setNextLevel false node type) = some node := by
          rw [typedCoding_child_eq_some,
            PagetableEntry.nextLevel_setNextLevel (A.aligned halloc) (A.below halloc)]
          exact ⟨A.nonnull halloc, rfl⟩
        have inner : (typedCoding T).inner (.setNextLevel false node type) :=
          Or.inr ⟨node, type, ofType, A.nonnull halloc, A.aligned halloc, A.below halloc, rfl⟩
        obtain ⟨tree', grown, -, -⟩ := tree.install inUse (typedCoding_child_eq_none.mpr empty)
          unused inner leads
        refine ⟨_, ⟨tree', grown, ?_, [node], rfl, List.nodup_singleton node, ?_, ?_⟩, ?_, ?_⟩
        · rintro a (rfl | ha) i hi
          · rw [Store.write_node_ne _ _ _ notRoot.symm, Store.alloc_self]
          · have notNode : a ≠ node := fun same => unused (same ▸ inUse a ha)
            by_cases top : a = root
            · subst top
              rw [Store.write_slot_ne _ _ _ (by omega), Store.alloc_ne _ _ notNode]
              exact clean a ha i hi
            · rw [Store.write_node_ne _ _ _ top, Store.alloc_ne _ _ notNode]
              exact clean a ha i hi
        · intro a ha
          rw [List.mem_singleton.mp ha]
          exact unused
        · intro a
          rw [List.mem_singleton]
          exact or_comm
        · rw [Store.write_self]
          exact leads
        · intro i
          by_cases hi : i = index
          · subst hi
            exact .inr ⟨empty, node, A.nonnull halloc, A.aligned halloc, A.below halloc,
              Store.write_self ..⟩
          · refine .inl ?_
            rw [Store.write_slot_ne _ _ _ hi, Store.alloc_ne _ _ notRoot]
  · rw [if_neg empty]
    exact ⟨N, .refl tree inUse clean, typedCoding_child_eq_some.mpr ⟨empty, rfl⟩, .of_eq rfl⟩

/-- An operation on the table below a slot, seen from above. -/
theorem Extends.below {f : PagetableStore → Result PagetableStore} {r : Nat} {E : Fault → Prop}
    (tree : Tree (typedCoding T) s.nodes (d + 1) root N) (inUse : ∀ a ∈ N, a ∈ s.live)
    (clean : Clean s.nodes N) (child : (typedCoding T).child (s.nodes root index) = some r)
    (operation : ∀ B, Tree (typedCoding T) s.nodes d r B → (∀ a ∈ B, a ∈ s.live) →
      Clean s.nodes B → Sat (f s) (fun t => ∃ M, Extends T d r s t B M) E) :
    Sat (f s) (fun t => ∃ M, Extends T (d + 1) root s t N M ∧ t.nodes root = s.nodes root) E := by
  obtain ⟨B, treeB, sub, apart, graft⟩ := tree.descend_within inUse child
  refine (operation B treeB (fun a ha => inUse a (sub a ha))
    (fun a ha => clean a (sub a ha))).mono_post ?_
  rintro t ⟨M, ext⟩
  have grafted := graft t M ext.tree ext.grown
  obtain ⟨fresh, live, distinct, unused, mem⟩ := ext.taken
  have outside : ∀ a ∈ N, a ∉ B → a ∉ M :=
    fun a ha notB hM => ext.grown.fresh a hM notB (inUse a ha)
  refine ⟨N ∪ M, ⟨grafted.tree, grafted.grown, ?_, fresh, live, distinct, unused, ?_⟩, ?_⟩
  · intro a ha i hi
    by_cases hM : a ∈ M
    · exact ext.clean a hM i hi
    · rw [ext.grown.frame a hM]
      exact clean a (ha.resolve_right hM) i hi
  · intro a
    rw [Set.mem_union, mem]
    constructor
    · rintro (ha | ha | ha)
      · exact .inl ha
      · exact .inl (sub a ha)
      · exact .inr ha
    · rintro (ha | ha)
      · exact .inl ha
      · exact .inr (.inr ha)
  · exact ext.grown.frame root (outside root tree.root_mem apart)

/-- Writing a slot of a node of leaves. -/
theorem Extends.write_leaf {e : PagetableEntry} (inUse : root ∈ s.live)
    (clean : Clean s.nodes {root}) (inside : index < pagetableEntryCount) :
    Extends T 0 root s (s.write root index e) {root} {root} := by
  obtain ⟨tree, grown⟩ := Tree.write_leaf (c := typedCoding T) index e inUse
  refine ⟨tree, grown, ?_, [], rfl, List.nodup_nil, by simp, by simp⟩
  rintro a rfl i hi
  rw [Store.write_slot_ne _ _ _ (by omega)]
  exact clean a rfl i hi

/-- A loop that writes slots of a node of leaves. -/
theorem Extends.loop_leaves {cond : Nat → Bool} {next : Nat → Nat} {level fuel base : Nat}
    (entry : Nat → PagetableStore → PagetableEntry) (inUse : ∀ a ∈ ({root} : Set Nat), a ∈ s.live)
    (clean : Clean s.nodes {root}) :
    Sat (loop Fault.diverge cond next
        (fun addr s => .ok (s.write root (pagetableIndex addr level) (entry addr s))) fuel base s)
      (Extends T 0 root s · {root} {root}) (fun _ => True) := by
  refine (loop_invariant (fun _ t => Extends T 0 root s t {root} {root}) ?_
    (.refl rfl inUse clean)).mono_post (fun t ⟨_, ext, _⟩ => ext)
  intro addr u ext _
  exact ext.trans (.write_leaf (ext.grown.owned root rfl) ext.clean (pagetableIndex_lt _ _))

/-- Adding to a table, whatever the arguments. Entries of the top node that are new have the
type of the call, and a range that is not empty leaves one that leads on. -/
theorem addToPagetable_extends (ofType : type ∈ T) (normal : PagetableType.normal ∈ T)
    (tree : Tree (typedCoding T) s.nodes d root N) (inUse : ∀ a ∈ N, a ∈ s.live)
    (clean : Clean s.nodes N) :
    Sat (addToPagetable ps A false (ps.lowestLevel + d) root base size perm type s)
      (fun t => ∃ M, Extends T d root s t N M ∧ (d ≠ 0 → RootKept type s t root ∧
        (base < u64 (base + size) → ∃ i, (t.nodes root i).nextLevel ≠ 0)))
      (fun _ => True) := by
  induction d generalizing root base size type s N with
  | zero =>
      rw [show N = {root} from tree] at inUse clean ⊢
      rw [Nat.add_zero, addToPagetable_lowest]
      exact (Extends.loop_leaves
        (fun addr _ => .setLeaf false addr type perm ps.lowestLevel) inUse clean).mono_post
        (fun t ext => ⟨{root}, ext, fun no => absurd rfl no⟩)
  | succ d ih =>
      rw [← Nat.add_assoc, addToPagetable_above (Nat.le_add_right _ _)]
      refine (loop_invariant (fun addr t => ∃ M, Extends T (d + 1) root s t N M ∧
        RootKept type s t root ∧ (addr = base ∨ ∃ i, (t.nodes root i).nextLevel ≠ 0)) ?_
        ⟨N, .refl tree inUse clean, .of_eq rfl, .inl rfl⟩).mono_post ?_
      · rintro addr u ⟨M, ext, kept, -⟩ _
        refine (nextRootOrAlloc_extends ofType ext.tree ext.grown.owned ext.clean
          (pagetableIndex_lt addr _)).bind ?_
        rintro ⟨r, v⟩ ⟨B, extB, child, keptB⟩
        refine (Extends.below extB.tree extB.grown.owned extB.clean child
          (fun L treeL inUseL cleanL => (ih normal treeL inUseL cleanL).mono_post
            (fun t ⟨P, extP, _⟩ => ⟨P, extP⟩))).mono_post ?_
        rintro t ⟨P, extP, same⟩
        refine ⟨P, ext.trans (extB.trans extP), kept.trans (keptB.trans (.of_eq same)),
          .inr ⟨pagetableIndex addr (ps.lowestLevel + d + 1), ?_⟩⟩
        rw [same]
        exact (typedCoding_child_eq_some.mp child).1
      · rintro t ⟨addr, ⟨M, ext, kept, reached⟩, stop⟩
        refine ⟨M, ext, fun _ => ⟨kept, fun more => reached.resolve_left ?_⟩⟩
        rintro rfl
        exact absurd more (of_decide_eq_false stop)

/-- Removing from a table takes no node and keeps the top node as it is. -/
theorem removeFromPagetable_extends (tree : Tree (typedCoding T) s.nodes d root N)
    (inUse : ∀ a ∈ N, a ∈ s.live) (clean : Clean s.nodes N) :
    Sat (removeFromPagetable ps (ps.lowestLevel + d) root base size s)
      (fun t => ∃ M, Extends T d root s t N M ∧ (d ≠ 0 → t.nodes root = s.nodes root))
      (fun _ => True) := by
  induction d generalizing root base size s N with
  | zero =>
      rw [show N = {root} from tree] at inUse clean ⊢
      rw [Nat.add_zero, removeFromPagetable_lowest]
      exact (Extends.loop_leaves
        (fun addr s => (s.nodes root (pagetableIndex addr ps.lowestLevel)).reset)
        inUse clean).mono_post
        (fun t ext => ⟨{root}, ext, fun no => absurd rfl no⟩)
  | succ d ih =>
      rw [← Nat.add_assoc, removeFromPagetable_above (Nat.le_add_right _ _)]
      refine (loop_invariant (fun _ t => ∃ M, Extends T (d + 1) root s t N M ∧
        t.nodes root = s.nodes root) ?_ ⟨N, .refl tree inUse clean, rfl⟩).mono_post
        (fun t ⟨_, ⟨M, ext, same⟩, _⟩ => ⟨M, ext, fun _ => same⟩)
      rintro addr u ⟨M, ext, same⟩ _
      split
      next => exact ⟨M, ext, same⟩
      next leads =>
        refine (Extends.below ext.tree ext.grown.owned ext.clean
          (typedCoding_child_eq_some.mpr ⟨leads, rfl⟩)
          (fun L treeL inUseL cleanL => (ih treeL inUseL cleanL).mono_post
            (fun t ⟨P, extP, _⟩ => ⟨P, extP⟩))).mono_post ?_
        rintro t ⟨P, extP, same'⟩
        exact ⟨P, ext.trans extP, same'.trans same⟩

/-! ## Tables of compartments -/

theorem PageSize.topDepth_ne_zero (ps : PageSize) : ps.topDepth ≠ 0 := by
  cases ps <;> decide

/-- A table of a compartment, from its first node on. -/
structure Table (ps : PageSize) (T : Set PagetableType) (root : Nat) (s₀ s : PagetableStore)
    (N : Set Nat) : Prop where
  extended : Extends T ps.topDepth root (s₀.alloc root .null) s {root} N
  unused : root ∉ s₀.live

/-- The nodes of the table are the nodes that were allocated since. -/
theorem Table.allocated {s₀ : PagetableStore} (h : Table ps T root s₀ s N) :
    (allocatedSince s₀ s).Nodup ∧ ∀ a, a ∈ allocatedSince s₀ s ↔ a ∈ N := by
  obtain ⟨fresh, live, distinct, unused, mem⟩ := h.extended.taken
  have all : allocatedSince s₀ s = fresh ++ [root] := by
    rw [allocatedSince, live, Store.alloc_live]
    have count : (fresh ++ root :: s₀.live).length - s₀.live.length =
        (fresh ++ [root]).length := by
      simp only [List.length_append, List.length_cons, List.length_nil]
      omega
    rw [count, List.append_cons fresh root s₀.live, List.take_left]
  rw [all]
  refine ⟨List.nodup_append.mpr ⟨distinct, List.nodup_singleton root, ?_⟩, fun a => ?_⟩
  · intro a ha b hb same
    rw [List.mem_singleton.mp hb] at same
    exact unused a ha (same ▸ List.mem_cons_self)
  · rw [mem, List.mem_append, List.mem_singleton]
    exact or_comm

theorem Table.of_extends {s₀ : PagetableStore} (h : Table ps T root s₀ s N)
    (ext : Extends T ps.topDepth root s t N M) : Table ps T root s₀ t M :=
  ⟨h.extended.trans ext, h.unused⟩

theorem Table.new {s₀ : PagetableStore} (unused : root ∉ s₀.live) :
    Table ps T root s₀ (s₀.alloc root .null) {root} := by
  have zeroed : ∀ i, (s₀.alloc root .null).nodes root i = (typedCoding T).zero :=
    Store.alloc_self s₀ root .null
  refine ⟨.refl (.of_zero zeroed) ?_ ?_, unused⟩
  · rintro a rfl
    exact List.mem_cons_self
  · rintro a rfl i -
    exact zeroed i

section Calls

variable {s₀ : PagetableStore} {kernelPagetable : Nat}

/-- The whole of `add_to_pagetable` at the top level. -/
theorem Table.add (h : Table ps T root s₀ s N) (ofType : type ∈ T)
    (normal : PagetableType.normal ∈ T)
    (done : addToPagetable ps A false pml4Level root base size perm type s = .ok t) :
    (∃ M, Table ps T root s₀ t M) ∧ RootKept type s t root ∧
      (base < u64 (base + size) → ∃ i, (t.nodes root i).nextLevel ≠ 0) := by
  rw [← ps.lowestLevel_add_topDepth] at done
  obtain ⟨M, ext, top⟩ := (addToPagetable_extends ofType normal h.extended.tree
    h.extended.grown.owned h.extended.clean).of_ok done
  exact ⟨⟨M, h.of_extends ext⟩, top ps.topDepth_ne_zero⟩

theorem Table.call {call : CompartmentCall} (h : Table ps T root s₀ s N)
    (normal : PagetableType.normal ∈ T) (done : call.run ps A kernelPagetable root s = .ok t) :
    (∃ M, Table ps T root s₀ t M) ∧ RootKept .normal s t root := by
  cases call with
  | add base size perm =>
      obtain ⟨-, done⟩ := guard_eq_ok.mp done
      obtain ⟨table, kept, -⟩ := h.add normal normal done
      exact ⟨table, kept⟩
  | remove base size =>
      obtain ⟨-, done⟩ := guard_eq_ok.mp done
      obtain ⟨-, done⟩ := guard_eq_ok.mp done
      rw [← ps.lowestLevel_add_topDepth] at done
      obtain ⟨M, ext, same⟩ := (removeFromPagetable_extends h.extended.tree
        h.extended.grown.owned h.extended.clean).of_ok done
      exact ⟨⟨M, h.of_extends ext⟩, .of_eq (same ps.topDepth_ne_zero)⟩

theorem Table.calls {calls : List CompartmentCall} (h : Table ps T root s₀ s N)
    (normal : PagetableType.normal ∈ T)
    (done : calls.foldlM (fun s call => call.run ps A kernelPagetable root s) s = .ok t) :
    (∃ M, Table ps T root s₀ t M) ∧ RootKept .normal s t root := by
  refine foldlM_rule (fun _ t => (∃ M, Table ps T root s₀ t M) ∧ RootKept .normal s t root) done
    ⟨⟨N, h⟩, .of_eq rfl⟩ ?_
  rintro - call - u v - - ⟨⟨M, table⟩, kept⟩ done
  obtain ⟨table', kept'⟩ := table.call normal done
  exact ⟨table', kept.trans kept'⟩

/-- All entries of a table's top node that lead on are persistent. -/
def AllPersistent (s : PagetableStore) (root : Nat) : Prop :=
  ∀ i, (s.nodes root i).nextLevel ≠ 0 → (s.nodes root i).isPersistent = true

theorem isPersistent_setNextLevel {ptr : Nat} (aligned : ptr % 4096 = 0) :
    (PagetableEntry.setNextLevel false ptr type).isPersistent = decide (type = .persistent) := by
  rw [PagetableEntry.setNextLevel, PagetableEntry.isPersistent, BitVec.or_assoc,
    BitVec.and_or_distrib_right,
    PagetableEntry.ofNat_and_flag aligned (by decide), BitVec.zero_or]
  cases type <;> decide

theorem AllPersistent.step (h : AllPersistent s root) (kept : RootKept .persistent s t root) :
    AllPersistent t root := by
  intro i leads
  rcases kept i with same | ⟨-, ptr, -, aligned, -, set⟩
  · rw [same] at leads ⊢
    exact h i leads
  · rw [set, isPersistent_setNextLevel aligned]
    rfl

/-- The maps of a new table. A range that is not empty leaves a persistent entry. -/
theorem Table.initializer {maps : List MapEntry} (h : Table ps T root s₀ s N)
    (persistent : PagetableType.persistent ∈ T) (normal : PagetableType.normal ∈ T)
    (words : ∀ e ∈ maps, e.range.start < 2 ^ 64 ∧ e.range.stop < 2 ^ 64)
    (only : AllPersistent s root)
    (done : compartmentInitializerFromMap ps A root maps s = .ok t) :
    (∃ M, Table ps T root s₀ t M) ∧ AllPersistent t root ∧
      ((∃ i, (s.nodes root i).nextLevel ≠ 0) ∨ (∃ e ∈ maps, e.range.start < e.range.stop) →
        ∃ i, (t.nodes root i).nextLevel ≠ 0) := by
  induction maps generalizing s N with
  | nil =>
      cases done
      exact ⟨⟨N, h⟩, only, fun leads => leads.resolve_right (by simp)⟩
  | cons e maps ih =>
      rw [compartmentInitializerFromMap, List.foldlM_cons] at done
      obtain ⟨u, first, rest⟩ := bind_eq_ok.mp done
      obtain ⟨⟨M, table⟩, kept, child⟩ := h.add persistent normal first
      obtain ⟨table', only', leads⟩ := ih table (fun e he => words e (List.mem_cons_of_mem _ he))
        (only.step kept) rest
      refine ⟨table', only', fun some => leads ?_⟩
      rcases some with ⟨i, hi⟩ | ⟨e', he, range⟩
      · exact .inl ⟨i, by rw [kept.child hi]; exact hi⟩
      · rcases List.mem_cons.mp he with rfl | he
        · refine .inl (child ?_)
          obtain ⟨start, stop⟩ := words e' List.mem_cons_self
          rw [sub64_of_le stop (Nat.le_of_lt range), Nat.add_sub_cancel' (Nat.le_of_lt range),
            u64_of_lt stop]
          exact range
        · exact .inr ⟨e', he, range⟩

/-- Ranges that are empty add nothing. -/
theorem compartmentInitializerFromMap_empty {maps : List MapEntry}
    (words : ∀ e ∈ maps, e.range.start < 2 ^ 64 ∧ e.range.stop < 2 ^ 64)
    (empty : ∀ e ∈ maps, e.range.stop ≤ e.range.start) :
    compartmentInitializerFromMap ps A root maps s = .ok s := by
  induction maps with
  | nil => rfl
  | cons e maps ih =>
      obtain ⟨start, stop⟩ := words e List.mem_cons_self
      have ends : u64 (e.range.start + sub64 e.range.stop e.range.start) = e.range.stop := by
        unfold u64 sub64 u64
        omega
      have nothing : addToPagetable ps A false pml4Level root e.range.start
          (sub64 e.range.stop e.range.start) e.perm .persistent s = .ok s := by
        rw [show pml4Level = pdpLevel + 1 from rfl, addToPagetable_above (by cases ps <;> decide),
          ends]
        refine loop_eq_foldlM (n := 0) (fun i no => absurd no (Nat.not_lt_zero i)) ?_ ?_
        · exact decide_eq_false (Nat.not_lt.mpr (empty e List.mem_cons_self))
        · rw [entryLoopBudget]
          decide
      rw [compartmentInitializerFromMap, List.foldlM_cons, nothing]
      exact ih (fun e he => words e (List.mem_cons_of_mem _ he))
        (fun e he => empty e (List.mem_cons_of_mem _ he))

end Calls

/-- The deallocation never frees a node twice, and nothing that is not the table's. -/
theorem Table.freed {s₀ : PagetableStore} (h : Table ps T root s₀ s N) :
    (freedNodes ps root s).Nodup ∧ ∀ a ∈ freedNodes ps root s, a ∈ allocatedSince s₀ s := by
  refine ⟨h.extended.tree.postOrder_nodup (fun _ _ => child_of_followed) List.nodup_range, ?_⟩
  intro a ha
  rw [h.allocated.2]
  exact h.extended.tree.mem_of_postOrder (fun _ _ => child_of_followed) ha

/-- What is behind a persistent entry of the top node is not freed. -/
theorem Table.not_freed {s₀ : PagetableStore} {i : Nat} (h : Table ps T root s₀ s N)
    (leads : (s.nodes root i).nextLevel ≠ 0) (persistent : (s.nodes root i).isPersistent = true) :
    (s.nodes root i).nextLevel ∈ allocatedSince s₀ s ∧
      (s.nodes root i).nextLevel ∉ freedNodes ps root s := by
  obtain ⟨d, depth⟩ := Nat.exists_eq_succ_of_ne_zero ps.topDepth_ne_zero
  have tree := h.extended.tree
  rw [depth] at tree
  obtain ⟨C, slots⟩ := tree
  have mem := (slots.below i _ (typedCoding_child_eq_some.mpr ⟨leads, rfl⟩)).root_mem
  refine ⟨(h.allocated.2 _).mpr (slots.sub mem), fun freed => ?_⟩
  rw [freedNodes, depth] at freed
  rcases mem_postOrder_succ.mp freed with ⟨j, -, r, followed, below⟩ | same
  · have subtree := slots.below j r (child_of_followed followed)
    cases slots.separate i j _ mem (subtree.mem_of_postOrder (fun _ _ => child_of_followed) below)
    rw [PagetableEntry.followed, if_pos persistent] at followed
    cases followed
  · exact slots.apart i (same ▸ mem)

/-- A table without persistent entries is freed as a whole. -/
theorem Table.freed_all {s₀ : PagetableStore} (h : Table ps {.normal} root s₀ s N) :
    (freedNodes ps root s).Perm (allocatedSince s₀ s) := by
  refine (List.perm_ext_iff_of_nodup h.freed.1 h.allocated.1).mpr fun a => ⟨h.freed.2 a, ?_⟩
  intro ha
  refine h.extended.tree.mem_postOrder ?_ ?_ ((h.allocated.2 a).mp ha)
  · rintro e (rfl | ⟨ptr, type, rfl, -, aligned, -, rfl⟩)
    · decide
    · rw [PagetableEntry.followed, isPersistent_setNextLevel aligned]
      rfl
  · intro b hb i leads
    apply List.mem_range.mpr
    by_contra outside
    rw [h.extended.clean b hb i (Nat.le_of_not_lt outside)] at leads
    exact leads (typedCoding {.normal}).child_zero

/-- A new table. Its maps leave a persistent entry unless they are empty. -/
theorem Table.created {predefined interruptStackMap : List MapEntry} {s₀ : PagetableStore}
    (words : ∀ e ∈ predefined ++ interruptStackMap,
      e.range.start < 2 ^ 64 ∧ e.range.stop < 2 ^ 64)
    (done : createCompartmentPagetable ps A predefined interruptStackMap s₀ = .ok (root, s)) :
    (∃ N, Table ps Set.univ root s₀ s N) ∧ AllPersistent s root ∧
      ((∃ e ∈ predefined ++ interruptStackMap, e.range.start < e.range.stop) →
        ∃ i, (s.nodes root i).nextLevel ≠ 0) := by
  obtain ⟨wordsP, wordsI⟩ := List.forall_mem_append.mp words
  obtain ⟨⟨root', u⟩, alloc, rest⟩ := bind_eq_ok.mp done
  obtain ⟨v, first, rest⟩ := bind_eq_ok.mp rest
  obtain ⟨w, second, same⟩ := bind_eq_ok.mp rest
  cases same
  obtain ⟨unused, fresh, -⟩ := ((allocPagetableNode_sat ps {false}).of_ok alloc).2.2
  replace fresh : u = s₀.alloc root .null := fresh
  subst fresh
  have none : AllPersistent (s₀.alloc root .null) root := by
    intro i leads
    rw [Store.alloc_self] at leads
    exact absurd PagetableEntry.nextLevel_null leads
  obtain ⟨⟨M, table⟩, onlyM, leadsM⟩ :=
    (Table.new unused).initializer (T := Set.univ) trivial trivial wordsP none first
  obtain ⟨⟨L, table⟩, only, leads⟩ := table.initializer trivial trivial wordsI onlyM second
  refine ⟨⟨L, table⟩, only, fun ⟨e, mem, range⟩ => ?_⟩
  rcases List.mem_append.mp mem with mem | mem
  · exact leads (.inl (leadsM (.inr ⟨e, mem, range⟩)))
  · exact leads (.inr ⟨e, mem, range⟩)

/-- With empty maps, a new table is its top node. -/
theorem Table.created_empty {predefined interruptStackMap : List MapEntry} {s₀ : PagetableStore}
    (words : ∀ e ∈ predefined ++ interruptStackMap,
      e.range.start < 2 ^ 64 ∧ e.range.stop < 2 ^ 64)
    (empty : ∀ e ∈ predefined ++ interruptStackMap, e.range.stop ≤ e.range.start)
    (done : createCompartmentPagetable ps A predefined interruptStackMap s₀ = .ok (root, s)) :
    Table ps T root s₀ s {root} := by
  obtain ⟨wordsP, wordsI⟩ := List.forall_mem_append.mp words
  obtain ⟨emptyP, emptyI⟩ := List.forall_mem_append.mp empty
  obtain ⟨⟨root', u⟩, alloc, rest⟩ := bind_eq_ok.mp done
  obtain ⟨v, first, rest⟩ := bind_eq_ok.mp rest
  obtain ⟨w, second, same⟩ := bind_eq_ok.mp rest
  cases same
  cases (compartmentInitializerFromMap_empty wordsP emptyP).symm.trans first
  cases (compartmentInitializerFromMap_empty wordsI emptyI).symm.trans second
  obtain ⟨unused, fresh, -⟩ := ((allocPagetableNode_sat ps {false}).of_ok alloc).2.2
  replace fresh : s = s₀.alloc root .null := fresh
  rw [fresh]
  exact .new unused

/-- The deallocation of a compartment's table frees each node at most once and only nodes of
this table. It frees them all exactly if the two maps that the table was created from are
empty. -/
theorem all_nodes_freed_iff {predefined interruptStackMap : List MapEntry}
    {calls : List CompartmentCall} {s₀ s₁ : PagetableStore} {kernelPagetable : Nat}
    (words : ∀ e ∈ predefined ++ interruptStackMap,
      e.range.start < 2 ^ 64 ∧ e.range.stop < 2 ^ 64)
    (created : createCompartmentPagetable ps A predefined interruptStackMap s₀ = .ok (root, s₁))
    (run : calls.foldlM (fun s call => call.run ps A kernelPagetable root s) s₁ = .ok t) :
    deallocateCompartmentPagetable ps root t = (freedNodes ps root t).foldl Store.free t ∧
      (freedNodes ps root t).Nodup ∧ freedNodes ps root t ⊆ allocatedSince s₀ t ∧
      ((freedNodes ps root t).Perm (allocatedSince s₀ t) ↔
        ∀ e ∈ predefined ++ interruptStackMap, e.range.stop ≤ e.range.start) := by
  obtain ⟨⟨M, first⟩, only, leads⟩ := Table.created words created
  obtain ⟨⟨N, table⟩, kept⟩ := first.calls trivial run
  refine ⟨deallocateCompartmentPagetable_eq, table.freed.1, table.freed.2, ?_, ?_⟩
  · intro all
    by_contra some
    push Not at some
    obtain ⟨i, leads⟩ := leads some
    -- no call takes the entry away
    have entry := kept.child leads
    obtain ⟨allocated, notFreed⟩ := table.not_freed (i := i) (by rw [entry]; exact leads)
      (by rw [entry]; exact only i leads)
    exact notFreed (all.mem_iff.mpr allocated)
  · intro empty
    have new : Table ps {.normal} root s₀ s₁ {root} := .created_empty words empty created
    obtain ⟨⟨N, table⟩, -⟩ := new.calls rfl run
    exact table.freed_all

/-- The memory before the first node is allocated. -/
def noNodes : PagetableStore := ⟨fun _ _ => .null, []⟩

/-- A table that starts empty and gets one page is freed with its four nodes. -/
theorem all_nodes_freed_iff_one_page :
    ∃ root s t, createCompartmentPagetable .kib4 .bump [] [] noNodes = .ok (root, s) ∧
      [CompartmentCall.add 0x400000 0x1000 .compartmentWrite].foldlM
        (fun s call => call.run .kib4 .bump 0 root s) s = .ok t ∧
      allocatedSince noNodes t = [0x4000, 0x3000, 0x2000, 0x1000] ∧
      (freedNodes .kib4 root t).Perm (allocatedSince noNodes t) := by
  have returns : (do
      let new ← createCompartmentPagetable .kib4 .bump [] [] noNodes
      let t ← [CompartmentCall.add 0x400000 0x1000 .compartmentWrite].foldlM
        (fun s (call : CompartmentCall) => call.run .kib4 .bump 0 new.1 s) new.2
      .ok (allocatedSince noNodes t)) = .ok [0x4000, 0x3000, 0x2000, 0x1000] := by
    decide +kernel
  obtain ⟨⟨root, s⟩, created, rest⟩ := bind_eq_ok.mp returns
  obtain ⟨t, run, nodes⟩ := bind_eq_ok.mp rest
  exact ⟨root, s, t, created, run, Except.ok.inj nodes,
    (all_nodes_freed_iff (by decide) created run).2.2.2.mpr (by decide)⟩

/-- A page in the predefined map takes three nodes below the top node, and they are leaked. -/
theorem persistent_nodes_leak :
    (createCompartmentPagetable .kib4 .bump [⟨⟨0, 0x1000⟩, .noAccess⟩] [] noNodes).map
      (fun new => (allocatedSince noNodes new.2, freedNodes .kib4 new.1 new.2)) =
      .ok ([0x4000, 0x3000, 0x2000, 0x1000], [0x1000]) := by
  decide +kernel

end Monza
