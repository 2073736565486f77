import Monza.Pagetable.Update

/-!
# Page tables refine finite maps

The two range functions of the source are range updates at every level, by
induction over the levels. At the top level this gives the abstract reading of a
page table: a map from addresses to leaf entries, changed by mapping and
unmapping ranges. A history of calls determines the map.
-/

namespace Monza

open Outcome Radix

variable {ps : PageSize} {A : NodeAllocator} {isKernel : Bool} {K : Set Bool}
variable {d root : Nat} {s t : PagetableStore} {N M : Set Nat}

section Arithmetic

variable {addr base size level : Nat}

/-- A page of an aligned range ends within the range. -/
theorem min_nextEntryBase_lowest (aligned : addr % ps.bytes = 0)
    (alignedEnd : (base + size) % ps.bytes = 0) (h : addr < base + size)
    (next : pagetableNextEntryBase addr ps.lowestLevel =
      (addr / pagetableEntryCoverage ps.lowestLevel + 1) *
        pagetableEntryCoverage ps.lowestLevel) :
    min (base + size) (pagetableNextEntryBase addr ps.lowestLevel) = addr + ps.bytes := by
  rw [pagetableEntryCoverage_lowest, Nat.add_mul, Nat.one_mul,
    Nat.div_mul_cancel (Nat.dvd_of_mod_eq_zero aligned)] at next
  rw [next, Nat.min_eq_right (add_le_of_mod aligned alignedEnd h)]

/-- What is left of a range in the entry of `addr`. -/
theorem sub64_min_nextEntryBase (bound : base + size ≤ 2 ^ 48)
    (h : addr < base + size) (grow : addr < pagetableNextEntryBase addr level) :
    addr + sub64 (min (u64 (base + size)) (pagetableNextEntryBase addr level)) addr =
      min (base + size) (pagetableNextEntryBase addr level) := by
  rw [u64_of_lt (by omega), sub64_of_le (by omega) (by omega)]
  omega

end Arithmetic

/-- Only a call at the lowest level hands its type on to leaves. -/
def leafType : Nat → PagetableType → PagetableType
  | 0, type => type
  | _ + 1, _ => .normal

@[simp] theorem leafType_normal (d : Nat) : leafType d .normal = .normal := by
  cases d <;> rfl

/-- The leaf that adding a range installs for an address: the identity mapping of
its page. -/
def leafFor (ps : PageSize) (isKernel : Bool) (type : PagetableType)
    (perm : PagetablePermission) (address : Nat) : PagetableEntry :=
  .setLeaf isKernel (alignDown address ps.bytes) type perm ps.lowestLevel

/-- A change that no lookup sees may come before a range update. -/
theorem RangeUpdate.of_same {lo hi : Nat} {v : Nat → PagetableEntry} {L : Set Nat}
    {u : PagetableStore} (grown : Grown s t N M)
    (same : ∀ path, lookup (tableCoding K) t.nodes path d root =
      lookup (tableCoding K) s.nodes path d root)
    (update : RangeUpdate ps K d root lo hi v M t u L) :
    RangeUpdate ps K d root lo hi v N s u L := by
  refine ⟨update.tree, grown.trans update.grown, fun a ha => ?_⟩
  rw [update.view a ha, same]

/-- The step of a loop above the lowest level, given the operation one level down. -/
theorem descend_rangeUpdate {E : Fault → Prop} {f : PagetableStore → Result PagetableStore}
    {v : Nat → PagetableEntry} {r addr hi : Nat} (nonempty : addr < hi)
    (tree : Tree (tableCoding K) s.nodes (d + 1) root N) (inUse : ∀ a ∈ N, a ∈ s.live)
    (child : (tableCoding K).child
      (s.nodes root (pagetableIndex addr (ps.lowestLevel + d + 1))) = some r)
    (entry : hi ≤ (addr / pagetableEntryCoverage (ps.lowestLevel + d + 1) + 1) *
      pagetableEntryCoverage (ps.lowestLevel + d + 1))
    (operation : ∀ B, Tree (tableCoding K) s.nodes d r B → (∀ a ∈ B, a ∈ s.live) →
      Sat (f s) (fun t => ∃ M, RangeUpdate ps K d r addr hi v B s t M) E) :
    Sat (f s) (fun t => ∃ M, RangeUpdate ps K (d + 1) root addr hi v N s t M) E := by
  refine (descend_sat tree inUse child (pagetableIndex_lt _ _) (fun B treeB inUseB =>
    (operation B treeB inUseB).mono_post
      (fun t ⟨M, update⟩ => ⟨M, update.tree, update.grown, update.view⟩))).mono_post ?_
  rintro t ⟨M, treeM, grownM, descent, view⟩
  exact ⟨M, descent_rangeUpdate nonempty descent treeM grownM view entry⟩

/-- A part that lies in an empty entry reads as zero already. -/
theorem skip_rangeUpdate {addr hi : Nat} (nonempty : addr < hi)
    (tree : Tree (tableCoding K) s.nodes (d + 1) root N) (inUse : ∀ a ∈ N, a ∈ s.live)
    (empty : (s.nodes root (pagetableIndex addr (ps.lowestLevel + d + 1))).nextLevel = 0)
    (entry : hi ≤ (addr / pagetableEntryCoverage (ps.lowestLevel + d + 1) + 1) *
      pagetableEntryCoverage (ps.lowestLevel + d + 1)) :
    RangeUpdate ps K (d + 1) root addr hi (fun _ => .null) N s s N := by
  refine ⟨tree, Grown.refl inUse, fun a ha => ?_⟩
  split
  case isTrue inside =>
    have hslot : addressPath ps a (d + 1) = pagetableIndex addr (ps.lowestLevel + d + 1) :=
      (pagetableIndex_eq_iff (ha nonempty)).mpr
        ((div_eq_iff_between (pagetableEntryCoverage_pos _)).mpr
          ⟨Nat.le_trans (Nat.div_mul_le_self _ _) inside.1,
            Nat.lt_of_lt_of_le inside.2 entry⟩)
    rw [lookup, hslot, tableCoding_child_eq_none.mpr empty]
    rfl
  case isFalse => rfl

/-- `add_to_pagetable` maps exactly its range. -/
theorem addToPagetable_rangeUpdate {base : Nat} (size : Nat) (perm : PagetablePermission)
    (type : PagetableType) (kind : isKernel ∈ K)
    (tree : Tree (tableCoding K) s.nodes d root N) (inUse : ∀ a ∈ N, a ∈ s.live)
    (aligned : base % ps.bytes = 0) (alignedEnd : (base + size) % ps.bytes = 0)
    (bound : base + size ≤ 2 ^ 48) (level : ps.lowestLevel + d ≤ 3)
    (block : base + size ≤ (base / pagetableEntryCoverage (ps.lowestLevel + d + 1) + 1) *
      pagetableEntryCoverage (ps.lowestLevel + d + 1)) :
    Sat (addToPagetable ps A isKernel (ps.lowestLevel + d) root base size perm type s)
      (fun t => ∃ M, RangeUpdate ps K d root base (base + size)
        (leafFor ps isKernel (leafType d type) perm) N s t M)
      (· = .outOfMemory) := by
  induction d generalizing root base size type s N with
  | zero =>
      rw [Nat.add_zero, addToPagetable_lowest]
      refine loop_rangeUpdate (d := 0) tree inUse aligned bound level block ?_
      intro addr t M treeM inUseM haddr hlt hnext
      have hpage := min_nextEntryBase_lowest haddr alignedEnd hlt hnext
      refine ⟨{root}, write_rangeUpdate treeM inUseM haddr hpage ?_⟩
      intro a ha
      rw [leafFor, alignDown, ha, Nat.div_mul_cancel (Nat.dvd_of_mod_eq_zero haddr)]
      rfl
  | succ d ih =>
      rw [← Nat.add_assoc, addToPagetable_above (Nat.le_add_right _ _)]
      refine loop_rangeUpdate (d := d + 1) tree inUse aligned bound level block ?_
      intro addr t M treeM inUseM haddr hlt hnext
      have hsize := sub64_min_nextEntryBase bound hlt (lt_pagetableNextEntryBase hnext)
      have hmore := Nat.lt_min.mpr ⟨hlt, lt_pagetableNextEntryBase hnext⟩
      have hends := pagetableNextEntryBase_mod hnext (pagetableEntryCoverage_mod ps (d + 1))
      refine ((nextRootOrAlloc_sat kind treeM inUseM (pagetableIndex_lt _ _)).mono (fun _ h => h)
        fun _ refused => refused.1).bind ?_
      rintro ⟨r, u⟩ ⟨L, treeL, grownL, child, same, -⟩
      refine (descend_rangeUpdate hmore treeL grownL.owned child
        (Nat.le_trans (Nat.min_le_right _ _) (Nat.le_of_eq hnext)) ?_).mono_post
        (fun w ⟨P, update⟩ => ⟨P, update.of_same grownL same⟩)
      intro B treeB inUseB
      have below := ih (sub64 (min (u64 (base + size))
          (pagetableNextEntryBase addr (ps.lowestLevel + (d + 1)))) addr) .normal treeB inUseB haddr
        (by rw [hsize]; exact min_mod alignedEnd hends)
        (by omega) (by omega)
        (by rw [hsize]; exact Nat.le_trans (Nat.min_le_right _ _) (Nat.le_of_eq hnext))
      rwa [hsize, leafType_normal] at below

/-- `remove_from_pagetable` unmaps exactly its range and cannot fail. -/
theorem removeFromPagetable_rangeUpdate {base : Nat} (size : Nat)
    (tree : Tree (tableCoding K) s.nodes d root N) (inUse : ∀ a ∈ N, a ∈ s.live)
    (aligned : base % ps.bytes = 0) (alignedEnd : (base + size) % ps.bytes = 0)
    (bound : base + size ≤ 2 ^ 48) (level : ps.lowestLevel + d ≤ 3)
    (block : base + size ≤ (base / pagetableEntryCoverage (ps.lowestLevel + d + 1) + 1) *
      pagetableEntryCoverage (ps.lowestLevel + d + 1)) :
    Sat (removeFromPagetable ps (ps.lowestLevel + d) root base size s)
      (fun t => ∃ M, RangeUpdate ps K d root base (base + size) (fun _ => .null) N s t M)
      (fun _ => False) := by
  induction d generalizing root base size s N with
  | zero =>
      rw [Nat.add_zero, removeFromPagetable_lowest]
      refine loop_rangeUpdate (d := 0) tree inUse aligned bound level block ?_
      intro addr t M treeM inUseM haddr hlt hnext
      have hpage := min_nextEntryBase_lowest haddr alignedEnd hlt hnext
      exact ⟨{root}, write_rangeUpdate treeM inUseM haddr hpage (fun _ _ => rfl)⟩
  | succ d ih =>
      rw [← Nat.add_assoc, removeFromPagetable_above (Nat.le_add_right _ _)]
      refine loop_rangeUpdate (d := d + 1) tree inUse aligned bound level block ?_
      intro addr t M treeM inUseM haddr hlt hnext
      have hsize := sub64_min_nextEntryBase bound hlt (lt_pagetableNextEntryBase hnext)
      have hmore := Nat.lt_min.mpr ⟨hlt, lt_pagetableNextEntryBase hnext⟩
      have hends := pagetableNextEntryBase_mod hnext (pagetableEntryCoverage_mod ps (d + 1))
      have entry := Nat.le_trans (Nat.min_le_right (base + size) _) (Nat.le_of_eq hnext)
      by_cases hempty : (t.nodes root (pagetableIndex addr (ps.lowestLevel + d + 1))).nextLevel = 0
      · rw [if_pos hempty]
        exact ⟨M, skip_rangeUpdate hmore treeM inUseM hempty entry⟩
      · rw [if_neg hempty]
        refine descend_rangeUpdate (f := removeFromPagetable ps (ps.lowestLevel + d) _ addr _)
          hmore treeM inUseM (tableCoding_child_eq_some.mpr ⟨hempty, rfl⟩) entry ?_
        intro B treeB inUseB
        have below := ih (sub64 (min (u64 (base + size))
            (pagetableNextEntryBase addr (ps.lowestLevel + (d + 1)))) addr) treeB inUseB haddr
          (by rw [hsize]; exact min_mod alignedEnd hends)
          (by omega) (by omega) (by rw [hsize]; exact entry)
        rwa [hsize] at below

/-- Depth of a whole table below its root node. -/
def PageSize.topDepth : PageSize → Nat
  | .kib4 => 3
  | .mib2 => 2

/-- The nodes of a full table below its root. -/
def PageSize.tableNodes (ps : PageSize) : Nat := capacity pagetableEntryCount ps.topDepth

theorem PageSize.lowestLevel_add_topDepth (ps : PageSize) :
    ps.lowestLevel + ps.topDepth = pml4Level := by
  cases ps <;> rfl

theorem PageSize.leafType_topDepth (ps : PageSize) (type : PagetableType) :
    leafType ps.topDepth type = .normal := by
  cases ps <;> rfl

/-- A whole table: the tree below `root` over the nodes `N`, all of them in use. -/
structure TableAt (ps : PageSize) (K : Set Bool) (s : PagetableStore) (root : Nat)
    (N : Set Nat) : Prop where
  tree : Tree (tableCoding K) s.nodes ps.topDepth root N
  inUse : ∀ a ∈ N, a ∈ s.live
  nonnull : root ≠ 0

/-- The leaf entry of an address, as `get_kernel_pagetable_entry` reads it. -/
def entryAt (ps : PageSize) (s : PagetableStore) (root address : Nat) : PagetableEntry :=
  getPagetableEntry ps s root pml4Level address

/-- A table update seen through its map: `v` on `[lo, hi)`, nothing else. -/
structure MapUpdate (ps : PageSize) (K : Set Bool) (root lo hi : Nat)
    (v : Nat → PagetableEntry) (N : Set Nat) (s t : PagetableStore) (M : Set Nat) : Prop where
  table : TableAt ps K t root M
  grown : Grown s t N M
  entry : ∀ a, a < 2 ^ 48 → entryAt ps t root a =
    if lo ≤ a ∧ a < hi then v a else entryAt ps s root a

namespace TableAt

theorem entryAt_eq (h : TableAt ps K s root N) (address : Nat) :
    entryAt ps s root address =
      lookup (tableCoding K) s.nodes (addressPath ps address) ps.topDepth root := by
  rw [entryAt, ← ps.lowestLevel_add_topDepth]
  exact getPagetableEntry_eq_lookup h.tree h.nonnull address

theorem of_zeroed (inUse : root ∈ s.live) (nonnull : root ≠ 0)
    (zeroed : ∀ i, s.nodes root i = .null) : TableAt ps K s root {root} := by
  refine ⟨Tree.of_zero zeroed, ?_, nonnull⟩
  rintro a rfl
  exact inUse

/-- A table survives updates of tables it shares no node with. -/
theorem other (h : TableAt ps K s root N) {L : Set Nat} (grown : Grown s t L M)
    (separate : ∀ a ∈ N, a ∉ L) : TableAt ps K t root N :=
  ⟨grown.tree_other h.tree h.inUse separate, fun a ha => grown.live a (h.inUse a ha), h.nonnull⟩

theorem entryAt_other (h : TableAt ps K s root N) {L : Set Nat} (grown : Grown s t L M)
    (separate : ∀ a ∈ N, a ∉ L) (address : Nat) :
    entryAt ps t root address = entryAt ps s root address := by
  rw [(h.other grown separate).entryAt_eq, h.entryAt_eq]
  exact grown.lookup_other h.tree h.inUse separate _

/-- All addresses below `2 ^ 48` share the root node. -/
theorem mapUpdate (h : TableAt ps K s root N) {lo hi : Nat} {v : Nat → PagetableEntry}
    (below : hi ≤ 2 ^ 48) (update : RangeUpdate ps K ps.topDepth root lo hi v N s t M) :
    MapUpdate ps K root lo hi v N s t M := by
  have table : TableAt ps K t root M := ⟨update.tree, update.grown.owned, h.nonnull⟩
  refine ⟨table, update.grown, fun a ha => ?_⟩
  rw [table.entryAt_eq, h.entryAt_eq]
  refine update.view a (fun h => ?_)
  rw [ps.lowestLevel_add_topDepth]
  exact (Nat.div_eq_of_lt ha).trans (Nat.div_eq_of_lt (Nat.lt_of_lt_of_le h below)).symm

end TableAt

section TopLevel

variable {base size : Nat}

theorem topLevel_block (bound : base + size ≤ 2 ^ 48) :
    base + size ≤ (base / pagetableEntryCoverage (ps.lowestLevel + ps.topDepth + 1) + 1) *
      pagetableEntryCoverage (ps.lowestLevel + ps.topDepth + 1) := by
  rw [ps.lowestLevel_add_topDepth]
  refine Nat.le_trans bound (Nat.le_trans (Nat.le_of_eq rfl) (Nat.le_mul_of_pos_left _ ?_))
  exact Nat.succ_pos _

/-- A table without entries lacks all its nodes. -/
theorem vacant_of_zeroed (zeroed : ∀ i, s.nodes root i = .null) :
    vacant K s ps.topDepth root = ps.tableNodes := by
  rw [vacant, vacancies_of_zero zeroed, List.length_range]
  rfl

theorem TableAt.add_fills {perm : PagetablePermission} {type : PagetableType}
    (h : TableAt ps K s root N) (kind : isKernel ∈ K) :
    Sat (addToPagetable ps A isKernel pml4Level root base size perm type s)
      (Fills A K ps.topDepth root s)
      (fun f => f = .outOfMemory → RefusedAlloc A K ps.topDepth root s f) := by
  rw [← ps.lowestLevel_add_topDepth]
  exact (addToPagetable_shape kind h.tree h.inUse).mono_post fun t ⟨_, _, _, fills⟩ => fills

theorem TableAt.remove_fills (A : NodeAllocator) (h : TableAt ps K s root N) :
    Sat (removeFromPagetable ps pml4Level root base size s)
      (Fills A K ps.topDepth root s)
      (fun f => f = .outOfMemory → RefusedAlloc A K ps.topDepth root s f) := by
  rw [← ps.lowestLevel_add_topDepth]
  exact (removeFromPagetable_shape h.tree h.inUse).mono_post fun t ⟨_, _, _, fills⟩ => fills

/-- The whole of `add_to_pagetable` at the top level. -/
theorem TableAt.add {perm : PagetablePermission} {type : PagetableType}
    (h : TableAt ps K s root N) (kind : isKernel ∈ K) (aligned : base % ps.bytes = 0)
    (alignedSize : size % ps.bytes = 0) (bound : base + size ≤ 2 ^ 48) :
    Sat (addToPagetable ps A isKernel pml4Level root base size perm type s)
      (fun t => ∃ M, MapUpdate ps K root base (base + size)
        (leafFor ps isKernel .normal perm) N s t M)
      (RefusedAlloc A K ps.topDepth root s) := by
  have update := addToPagetable_rangeUpdate (A := A) size perm type kind h.tree
    h.inUse aligned (add_mod_zero aligned alignedSize) bound
    (Nat.le_of_eq ps.lowestLevel_add_topDepth) (topLevel_block bound)
  rw [ps.lowestLevel_add_topDepth, ps.leafType_topDepth] at update
  exact (update.both (h.add_fills kind)).mono (fun t ⟨⟨M, hM⟩, _⟩ => ⟨M, h.mapUpdate bound hM⟩)
    fun f ⟨oom, refused⟩ => refused oom

/-- The whole of `remove_from_pagetable` at the top level. -/
theorem TableAt.remove (h : TableAt ps K s root N) (aligned : base % ps.bytes = 0)
    (alignedSize : size % ps.bytes = 0) (bound : base + size ≤ 2 ^ 48) :
    Sat (removeFromPagetable ps pml4Level root base size s)
      (fun t => ∃ M, MapUpdate ps K root base (base + size) (fun _ => .null) N s t M)
      (fun _ => False) := by
  have update := removeFromPagetable_rangeUpdate size h.tree h.inUse aligned
    (add_mod_zero aligned alignedSize) bound (Nat.le_of_eq ps.lowestLevel_add_topDepth)
    (topLevel_block bound)
  rw [ps.lowestLevel_add_topDepth] at update
  exact update.mono_post (fun t ⟨M, hM⟩ => ⟨M, h.mapUpdate bound hM⟩)

end TopLevel

end Monza
