import Monza.Lib.Radix
import Monza.Pagetable.Entry

/-!
# The page table functions

Nodes live in a store indexed by their address; a node has 512 entries. The
template recursion over levels becomes structural recursion on the level, and
each loop keeps the source's loop head `addr < base + size` with its wrapping
arithmetic. The allocator is a parameter. It answers from the nodes in use and
may refuse; what it returns is fresh, non-null, 4 KiB aligned and below `2 ^ 52`.
-/

namespace Monza

/-- Page table pages are always 4 KiB. -/
def ptPageSize : Nat := 4 * 1024

def pagetableEntryCount : Nat := ptPageSize / 8

def pagetableEntryCoverageBits (level : Nat) : Nat := 12 + 9 * level

def pagetableEntryCoverage (level : Nat) : Nat :=
  2 ^ pagetableEntryCoverageBits level

def pagetableNextEntryBase (address : Nat) (level : Nat) : Nat :=
  alignUp (u64 (address + 1)) (pagetableEntryCoverage level)

def pagetableIndex (address : Nat) (level : Nat) : Nat :=
  (address >>> pagetableEntryCoverageBits level) &&& (pagetableEntryCount - 1)

theorem pagetableIndex_lt (a level : Nat) : pagetableIndex a level < pagetableEntryCount :=
  Nat.lt_succ_of_le Nat.and_le_right

abbrev PagetableStore := Radix.Store Nat Nat PagetableEntry

/-- The memory allocator behind `alloc_pagetable_node`, for early kernel
allocations and for ordinary ones. -/
structure NodeAllocator where
  alloc : Bool → List Nat → Option Nat
  fresh : ∀ {isKernel live node}, alloc isKernel live = some node → node ∉ live
  nonnull : ∀ {isKernel live node}, alloc isKernel live = some node → node ≠ 0
  aligned : ∀ {isKernel live node}, alloc isKernel live = some node → node % 4096 = 0
  below : ∀ {isKernel live node}, alloc isKernel live = some node → node < 2 ^ 52

/-- The assumptions can be met: hand out the page above all nodes in use. -/
def NodeAllocator.bump : NodeAllocator where
  alloc _ live :=
    let node := (live.foldr max 0 / 4096 + 1) * 4096
    if node < 2 ^ 52 then some node else none
  fresh := by
    intro isKernel live node h hmem
    have hle : ∀ l : List Nat, node ∈ l → node ≤ l.foldr max 0 := by
      intro l
      induction l with
      | nil => simp
      | cons a l ih =>
          intro hl
          rcases List.mem_cons.mp hl with rfl | hl
          · exact Nat.le_max_left _ _
          · exact Nat.le_trans (ih hl) (Nat.le_max_right _ _)
    have := hle live hmem
    simp only [Option.ite_none_right_eq_some, Option.some.injEq] at h
    omega
  nonnull := by
    intro isKernel live node h
    simp only [Option.ite_none_right_eq_some, Option.some.injEq] at h
    omega
  aligned := by
    intro isKernel live node h
    simp only [Option.ite_none_right_eq_some, Option.some.injEq] at h
    omega
  below := by
    intro isKernel live node h
    simp only [Option.ite_none_right_eq_some, Option.some.injEq] at h
    omega

/-- The allocator answers the next `n` requests for a node, of any of some kinds. -/
def NodeAllocator.Room (A : NodeAllocator) (K : Set Bool) : Nat → List Nat → Prop
  | 0, _ => True
  | n + 1, live => ∀ isKernel ∈ K, ∃ node, A.alloc isKernel live = some node ∧
      A.Room K n (node :: live)

theorem NodeAllocator.Room.of_add {A : NodeAllocator} {K : Set Bool} {n k : Nat}
    {live : List Nat} (h : A.Room K (n + k) live) : A.Room K n live := by
  induction n generalizing live with
  | zero => trivial
  | succ n ih =>
      rw [Nat.add_right_comm] at h
      intro isKernel kind
      obtain ⟨node, answer, rest⟩ := h isKernel kind
      exact ⟨node, answer, ih rest⟩

theorem NodeAllocator.room_bump {K : Set Bool} {n : Nat} {live : List Nat}
    (space : live.foldr max 0 + 4096 * n < 2 ^ 52) : NodeAllocator.bump.Room K n live := by
  induction n generalizing live with
  | zero => trivial
  | succ n ih =>
      intro isKernel _
      refine ⟨(live.foldr max 0 / 4096 + 1) * 4096, if_pos (by omega), ih ?_⟩
      rw [List.foldr_cons]
      omega

/-- A zeroed node, or the end of the run when memory is exhausted. -/
def allocPagetableNode (A : NodeAllocator) (isKernel : Bool) (s : PagetableStore) :
    Result (Nat × PagetableStore) :=
  match A.alloc isKernel s.live with
  | none => .error .outOfMemory
  | some node => .ok (node, s.alloc node .null)

/-- Loop heads of any run over page table entries that ends at all: the address
only grows, through multiples of the coverage of the lowest entries. Irreducible,
since no proof should run a loop by unfolding its budget. -/
@[irreducible] def entryLoopBudget : Nat := 2 ^ 52 + 2

/-- The node below an entry, created when the entry is still empty. -/
def nextRootOrAlloc (A : NodeAllocator) (isKernel : Bool) (root index : Nat)
    (type : PagetableType) (s : PagetableStore) : Result (Nat × PagetableStore) :=
  if (s.nodes root index).nextLevel = 0 then do
    let (node, s) ← allocPagetableNode A isKernel s
    .ok (node, s.write root index (.setNextLevel isKernel node type))
  else .ok ((s.nodes root index).nextLevel, s)

section

variable (ps : PageSize) (A : NodeAllocator) (isKernel : Bool)

/-- Write the leaves of a range, all below one node of the lowest level. -/
def addLeaves (level root base size : Nat) (perm : PagetablePermission)
    (type : PagetableType) (s : PagetableStore) : Result PagetableStore :=
  Outcome.loop .diverge (fun addr => decide (addr < u64 (base + size)))
    (pagetableNextEntryBase · level)
    (fun addr s => .ok (s.write root (pagetableIndex addr level)
      (.setLeaf isKernel addr type perm level)))
    entryLoopBudget base s

/-- `add_to_pagetable`. Nested calls omit the type, so only the entries of the
level it was called at carry it. -/
def addToPagetable : Nat → Nat → Nat → Nat → PagetablePermission →
    PagetableType → PagetableStore → Result PagetableStore
  | 0, root, base, size, perm, type, s => addLeaves isKernel 0 root base size perm type s
  | level + 1, root, base, size, perm, type, s =>
    if level + 1 = ps.lowestLevel then
      addLeaves isKernel (level + 1) root base size perm type s
    else
      Outcome.loop .diverge (fun addr => decide (addr < u64 (base + size)))
        (pagetableNextEntryBase · (level + 1))
        (fun addr s => do
          let (nextRoot, s) ←
            nextRootOrAlloc A isKernel root (pagetableIndex addr (level + 1)) type s
          let nextSize :=
            sub64 (min (u64 (base + size)) (pagetableNextEntryBase addr (level + 1))) addr
          addToPagetable level nextRoot addr nextSize perm .normal s)
        entryLoopBudget base s

/-- Reset the leaves of a range, all below one node of the lowest level. -/
def removeLeaves (level root base size : Nat) (s : PagetableStore) : Result PagetableStore :=
  Outcome.loop .diverge (fun addr => decide (addr < u64 (base + size)))
    (pagetableNextEntryBase · level)
    (fun addr s => .ok (s.write root (pagetableIndex addr level)
      (s.nodes root (pagetableIndex addr level)).reset))
    entryLoopBudget base s

/-- `remove_from_pagetable`. Entries without a node below are skipped. -/
def removeFromPagetable : Nat → Nat → Nat → Nat → PagetableStore →
    Result PagetableStore
  | 0, root, base, size, s => removeLeaves 0 root base size s
  | level + 1, root, base, size, s =>
    if level + 1 = ps.lowestLevel then removeLeaves (level + 1) root base size s
    else
      Outcome.loop .diverge (fun addr => decide (addr < u64 (base + size)))
        (pagetableNextEntryBase · (level + 1))
        (fun addr s =>
          let nextRoot := (s.nodes root (pagetableIndex addr (level + 1))).nextLevel
          if nextRoot = 0 then .ok s
          else
            let nextSize :=
              sub64 (min (u64 (base + size)) (pagetableNextEntryBase addr (level + 1))) addr
            removeFromPagetable level nextRoot addr nextSize s)
        entryLoopBudget base s

/-- The nodes below a node that are freed with it: those not behind a persistent entry. -/
def deallocatedBelow (root : Nat) (s : PagetableStore) : List Nat :=
  ((List.range pagetableEntryCount).map (s.nodes root)).filterMap fun entry =>
    if entry.isPersistent then none
    else if entry.nextLevel = 0 then none
    else some entry.nextLevel

/-- `deallocate_pagetable`. -/
def deallocatePagetable : Nat → Nat → PagetableStore → PagetableStore
  | 0, root, s => s.free root
  | level + 1, root, s =>
    if level + 1 = ps.lowestLevel then s.free root
    else
      ((deallocatedBelow root s).foldl (fun s nextRoot =>
        deallocatePagetable level nextRoot s) s).free root

/-- `get_pagetable_entry`. The large-mapping test reads the first entry of the
node, as the source does, not the selected one. -/
def getPagetableEntry (s : PagetableStore) (root level base : Nat) : PagetableEntry :=
  if root = 0 then .null
  else
    let entry := s.nodes root (pagetableIndex base level)
    match level with
    | 0 => entry
    | next + 1 =>
      if next + 1 = ps.lowestLevel || (s.nodes root 0).isLargeMapping then entry
      else getPagetableEntry s entry.nextLevel next base

end

variable {ps : PageSize} {A : NodeAllocator} {isKernel : Bool}
variable {level root base size : Nat} {s : PagetableStore}

theorem addToPagetable_lowest {perm : PagetablePermission} {type : PagetableType} :
    addToPagetable ps A isKernel ps.lowestLevel root base size perm type s =
      addLeaves isKernel ps.lowestLevel root base size perm type s := by
  cases ps with
  | kib4 => exact addToPagetable.eq_1 ..
  | mib2 => exact (addToPagetable.eq_2 ..).trans (if_pos rfl)

theorem addToPagetable_above {perm : PagetablePermission} {type : PagetableType}
    (h : ps.lowestLevel ≤ level) :
    addToPagetable ps A isKernel (level + 1) root base size perm type s =
      Outcome.loop .diverge (fun addr => decide (addr < u64 (base + size)))
        (pagetableNextEntryBase · (level + 1))
        (fun addr s => nextRootOrAlloc A isKernel root (pagetableIndex addr (level + 1)) type s
          >>= fun (nextRoot, s) => addToPagetable ps A isKernel level nextRoot addr
            (sub64 (min (u64 (base + size)) (pagetableNextEntryBase addr (level + 1))) addr)
            perm .normal s)
        entryLoopBudget base s := by
  rw [addToPagetable, if_neg (by omega)]

theorem removeFromPagetable_lowest :
    removeFromPagetable ps ps.lowestLevel root base size s =
      removeLeaves ps.lowestLevel root base size s := by
  cases ps with
  | kib4 => exact removeFromPagetable.eq_1 ..
  | mib2 => exact (removeFromPagetable.eq_2 ..).trans (if_pos rfl)

theorem removeFromPagetable_above (h : ps.lowestLevel ≤ level) :
    removeFromPagetable ps (level + 1) root base size s =
      Outcome.loop .diverge (fun addr => decide (addr < u64 (base + size)))
        (pagetableNextEntryBase · (level + 1))
        (fun addr s =>
          if (s.nodes root (pagetableIndex addr (level + 1))).nextLevel = 0 then .ok s
          else removeFromPagetable ps level
            (s.nodes root (pagetableIndex addr (level + 1))).nextLevel addr
            (sub64 (min (u64 (base + size)) (pagetableNextEntryBase addr (level + 1))) addr) s)
        entryLoopBudget base s := by
  rw [removeFromPagetable, if_neg (by omega)]

theorem getPagetableEntry_lowest (h : root ≠ 0) :
    getPagetableEntry ps s root ps.lowestLevel base =
      s.nodes root (pagetableIndex base ps.lowestLevel) := by
  cases ps <;> rw [getPagetableEntry, if_neg h] <;> rfl

theorem getPagetableEntry_above (h : root ≠ 0) (hl : ps.lowestLevel ≤ level)
    (small : (s.nodes root 0).isLargeMapping = false) :
    getPagetableEntry ps s root (level + 1) base =
      getPagetableEntry ps s (s.nodes root (pagetableIndex base (level + 1))).nextLevel
        level base := by
  rw [getPagetableEntry, if_neg h]
  have hne : ¬ (level + 1 = ps.lowestLevel) := by omega
  simp only [hne, small, decide_false, Bool.or_self, Bool.false_eq_true, if_false]

end Monza
