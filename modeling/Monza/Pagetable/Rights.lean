import Monza.Pagetable.Setup

/-!
# Effective rights of a hardware walk

The processor allows an access only if every entry on the path is present, a
write only if every entry is writable and a user access only if every entry is
marked user. The walk ends at the lowest level or at a large mapping.

Intermediate entries of compartment tables carry all three flags, so the leaf
alone decides. Intermediate entries of kernel tables are never marked user, so
no leaf can open a kernel table to user mode.
-/

namespace Monza

open Outcome Radix

structure Rights where
  present : Bool
  writable : Bool
  user : Bool
  deriving DecidableEq, Repr

namespace Rights

def none : Rights := ⟨false, false, false⟩

def ofFlags (flags : BitVec 64) : Rights :=
  ⟨flags &&& ptePresent != 0#64, flags &&& pteWritable != 0#64, flags &&& pteUser != 0#64⟩

def meet (r q : Rights) : Rights :=
  ⟨r.present && q.present, r.writable && q.writable, r.user && q.user⟩

@[simp] theorem full_meet (r : Rights) : meet ⟨true, true, true⟩ r = r := rfl

@[simp] theorem meet_user (r q : Rights) : (meet r q).user = (r.user && q.user) := rfl

end Rights

/-- The rights a single entry grants; the other flags of an absent entry mean nothing. -/
def PagetableEntry.rights (e : PagetableEntry) : Rights :=
  if e.has ptePresent then ⟨true, e.has pteWritable, e.has pteUser⟩ else .none

/-- The walk of the processor from the table node `table` at `level`. Entries of the
two middle levels may map large pages. -/
def effectiveRights (s : PagetableStore) (address : Nat) : Nat → Nat → Rights
  | 0, table => (s.nodes table (pagetableIndex address 0)).rights
  | level + 1, table =>
    let entry := s.nodes table (pagetableIndex address (level + 1))
    if entry.has ptePresent = false then .none
    else if entry.isLargeMapping = true ∧ level + 1 < pml4Level then entry.rights
    else entry.rights.meet (effectiveRights s address level entry.nextLevel)

variable {ps : PageSize} {A : NodeAllocator} {s : PagetableStore} {d root address : Nat}
variable {N : Set Nat}

@[simp] theorem PagetableEntry.rights_null : PagetableEntry.null.rights = .none := by decide

theorem PagetableEntry.rights_of_absent {e : PagetableEntry} (h : e.has ptePresent = false) :
    e.rights = .none := by
  rw [rights, h]
  rfl

theorem PagetableEntry.rights_setNextLevel (isKernel : Bool) (type : PagetableType) {ptr : Nat}
    (aligned : ptr % 4096 = 0) :
    (PagetableEntry.setNextLevel isKernel ptr type).rights = ⟨true, true, !isKernel⟩ := by
  rw [rights, has_setNextLevel aligned (by decide), has_setNextLevel aligned (by decide),
    has_setNextLevel aligned (by decide)]
  cases isKernel <;> cases type <;> decide

theorem TableCall.has_value {isKernel : Bool} {base size a : Nat} {perm : PagetablePermission}
    {type : PagetableType} {flag : BitVec 64} (low : flag.toNat < 4096) :
    ((TableCall.add isKernel base size perm type).value ps a).has flag =
      ((pagetableLeafPermissions isKernel perm ||| largePageFlag ps) &&& flag != 0#64) := by
  have aligned : a / ps.bytes * ps.bytes % 4096 = 0 := by
    cases ps <;> simp only [PageSize.bytes] <;> omega
  rw [TableCall.value, BitVec.or_assoc]
  exact PagetableEntry.has_mk aligned low

/-- The flag bits of a leaf are those of its permission. -/
theorem TableCall.rights_value {base size a : Nat} {perm : PagetablePermission}
    {type : PagetableType} :
    ((TableCall.add false base size perm type).value ps a).rights =
      .ofFlags (pagetableLeafPermissions false perm) := by
  rw [PagetableEntry.rights, has_value (by decide), has_value (by decide),
    has_value (by decide)]
  cases ps <;> cases perm <;> decide

/-- A present leaf ends the walk where the software expects it. -/
def PagetableEntry.EndsWalk (ps : PageSize) (e : PagetableEntry) : Prop :=
  e.has ptePresent = true → ps = .mib2 → e.isLargeMapping = true

theorem PagetableEntry.endsWalk_null : PagetableEntry.null.EndsWalk ps := by
  intro present
  rw [has_null] at present
  cases present

theorem TableCall.endsWalk_value (c : TableCall) (a : Nat) :
    (c.value ps a).EndsWalk ps := by
  cases c with
  | add isKernel base size perm type =>
      rintro - rfl
      change PagetableEntry.has _ ptePagesize = true
      rw [has_value (by decide)]
      cases isKernel <;> cases perm <;> decide
  | remove base size => exact PagetableEntry.endsWalk_null

section Step

variable (level : Nat)

theorem effectiveRights_of_null
    (h : s.nodes root (pagetableIndex address (level + 1)) = .null) :
    effectiveRights s address (level + 1) root = .none := by
  rw [effectiveRights, h]
  rfl

theorem effectiveRights_of_nextLevel {isKernel : Bool} {ptr : Nat} {type : PagetableType}
    (h : s.nodes root (pagetableIndex address (level + 1)) = .setNextLevel isKernel ptr type)
    (nonnull : ptr ≠ 0) (aligned : ptr % 4096 = 0) (below : ptr < 2 ^ 52) :
    effectiveRights s address (level + 1) root =
      .meet ⟨true, true, !isKernel⟩ (effectiveRights s address level ptr) := by
  have small := not_isLargeMapping_of_inner (K := Set.univ)
    (Or.inr ⟨isKernel, ptr, type, trivial, nonnull, aligned, below, rfl⟩)
  have rights := PagetableEntry.rights_setNextLevel isKernel type aligned
  have present : (PagetableEntry.setNextLevel isKernel ptr type).has ptePresent ≠ false := by
    intro absent
    rw [PagetableEntry.rights_of_absent absent] at rights
    cases rights
  simp only [effectiveRights, h]
  rw [if_neg present, small, if_neg (by simp), rights,
    PagetableEntry.nextLevel_setNextLevel aligned below]

end Step

/-- In a compartment table the walk grants exactly what the leaf grants. -/
theorem effectiveRights_eq_leaf (tree : Tree (tableCoding {false}) s.nodes d root N)
    (ends : (lookup (tableCoding {false}) s.nodes (addressPath ps address) d root).EndsWalk ps) :
    effectiveRights s address (ps.lowestLevel + d) root =
      (lookup (tableCoding {false}) s.nodes (addressPath ps address) d root).rights := by
  induction d generalizing root N with
  | zero =>
      cases ps with
      | kib4 => rfl
      | mib2 =>
          change effectiveRights s address (0 + 1) root =
            (s.nodes root (pagetableIndex address (0 + 1))).rights
          change (s.nodes root (pagetableIndex address (0 + 1))).EndsWalk .mib2 at ends
          rw [effectiveRights]
          by_cases h : (s.nodes root (pagetableIndex address (0 + 1))).has ptePresent = false
          · simp only [h, if_true]
            exact (PagetableEntry.rights_of_absent h).symm
          · have large := ends (by simpa using h) rfl
            simp [h, large, pml4Level]
  | succ d ih =>
      rcases tree.inner (addressPath ps address (d + 1)) with
        hnull | ⟨isKernel, ptr, type, rfl, nonnull, aligned, below, hnext⟩
      · have hc := (tableCoding_child_eq_none (K := {false})).mpr PagetableEntry.nextLevel_null
        rw [← Nat.add_assoc, effectiveRights_of_null (ps.lowestLevel + d) hnull, lookup, hnull, hc]
        exact PagetableEntry.rights_null.symm
      · have hc : (tableCoding {false}).child
            (s.nodes root (addressPath ps address (d + 1))) = some ptr := by
          rw [hnext, tableCoding_child_eq_some,
            PagetableEntry.nextLevel_setNextLevel aligned below]
          exact ⟨nonnull, rfl⟩
        rw [lookup, hc] at ends ⊢
        rw [← Nat.add_assoc, effectiveRights_of_nextLevel (ps.lowestLevel + d) hnext
          nonnull aligned below]
        obtain ⟨C, slots⟩ := tree
        exact ih (slots.below _ ptr hc) ends

/-- The same for a whole table: the processor finds what the software's walk finds. -/
theorem TableAt.effectiveRights_eq (h : TableAt ps {false} s root N)
    (ends : (entryAt ps s root address).EndsWalk ps) :
    effectiveRights s address pml4Level root = (entryAt ps s root address).rights := by
  rw [h.entryAt_eq] at ends ⊢
  rw [← ps.lowestLevel_add_topDepth]
  exact effectiveRights_eq_leaf h.tree ends

/-- No path through a kernel table is open to user mode, whatever its leaves say. -/
theorem effectiveRights_kernel (ps : PageSize)
    (tree : Tree (tableCoding {true}) s.nodes (d + 1) root N) :
    (effectiveRights s address (ps.lowestLevel + (d + 1)) root).user = false := by
  rcases tree.inner (addressPath ps address (d + 1)) with
    hnull | ⟨isKernel, ptr, type, rfl, nonnull, aligned, below, hnext⟩
  · rw [← Nat.add_assoc, effectiveRights_of_null (ps.lowestLevel + d) hnull]
    rfl
  · rw [← Nat.add_assoc, effectiveRights_of_nextLevel (ps.lowestLevel + d) hnext
      nonnull aligned below]
    rfl

/-- The rights that a history assigns to an address. -/
def historyRights (calls : List TableCall) (a : Nat) : Rights :=
  match calls.reverse.find? (·.covers a) with
  | some (.add _ _ _ perm _) => .ofFlags (pagetableLeafPermissions false perm)
  | some (.remove _ _) => .none
  | none => .none

theorem historyMap_rights (ps : PageSize) {calls : List TableCall} {a : Nat}
    (kinds : ∀ c ∈ calls, c.OfKind {false}) :
    (historyMap ps (fun _ => .null) calls a).rights = historyRights calls a ∧
      (historyMap ps (fun _ => .null) calls a).EndsWalk ps := by
  rw [historyMap, historyRights]
  cases hfind : calls.reverse.find? (·.covers a) with
  | none => exact ⟨PagetableEntry.rights_null, PagetableEntry.endsWalk_null⟩
  | some c =>
      refine ⟨?_, c.endsWalk_value a⟩
      have kind := kinds c (List.mem_reverse.mp (List.mem_of_find?_eq_some hfind))
      cases c with
      | add isKernel base size perm type =>
          have : isKernel = false := kind
          subst this
          exact TableCall.rights_value
      | remove base size => exact PagetableEntry.rights_null

/-- The walk only sees the low 48 bits of an address. -/
theorem pagetableIndex_mod (address : Nat) {level : Nat} (h : level ≤ pml4Level) :
    pagetableIndex (address % 2 ^ 48) level = pagetableIndex address level := by
  have hdvd : pagetableEntryCoverage (level + 1) ∣ 2 ^ 48 := by
    apply Nat.pow_dvd_pow
    rw [pagetableEntryCoverageBits]
    exact Nat.add_le_add_left (Nat.mul_le_mul_left 9 (Nat.succ_le_succ h)) 12
  rw [pagetableIndex_eq, pagetableIndex_eq, ← Nat.mod_mul_right_div_self,
    ← Nat.mod_mul_right_div_self, ← pagetableEntryCoverage_succ, Nat.mod_mod_of_dvd _ hdvd]

theorem effectiveRights_mod (address : Nat) {level : Nat} (h : level ≤ pml4Level) :
    effectiveRights s (address % 2 ^ 48) level root = effectiveRights s address level root := by
  induction level generalizing root with
  | zero => rw [effectiveRights, effectiveRights, pagetableIndex_mod address h]
  | succ level ih =>
      rw [effectiveRights, effectiveRights, pagetableIndex_mod address h]
      simp only [ih (Nat.le_of_succ_le h)]

/-- A compartment table as a program sees it: created, then changed by calls. -/
def createAndRun (ps : PageSize) (A : NodeAllocator) (predefined interruptStackMap : List MapEntry)
    (calls : List TableCall) (s : PagetableStore) : Result (Nat × PagetableStore) := do
  let (root, s) ← createCompartmentPagetable ps A predefined interruptStackMap s
  let s ← runCalls ps A root calls s
  .ok (root, s)

/-- A kernel table: a fresh root, then calls of `add_to_kernel_pagetable` with any arguments. -/
def kernelRun (ps : PageSize) (A : NodeAllocator)
    (calls : List (Nat × Nat × PagetablePermission)) (s : PagetableStore) :
    Result (Nat × PagetableStore) := do
  let (root, s) ← allocPagetableNode A true s
  let s ← calls.foldlM (fun s (base, size, perm) =>
    addToKernelPagetable ps A root base size perm s) s
  .ok (root, s)

theorem addToKernelPagetable_shape {base size : Nat} {perm : PagetablePermission}
    (table : TableAt ps {true} s root N) :
    Sat (addToKernelPagetable ps A root base size perm s)
      (fun t => ∃ M, TableAt ps {true} t root M) (fun _ => True) := by
  rw [addToKernelPagetable]
  split
  case isTrue => trivial
  case isFalse =>
      rw [← ps.lowestLevel_add_topDepth]
      refine (addToPagetable_shape (K := {true}) rfl table.tree table.inUse).mono ?_
        fun _ _ => trivial
      rintro t ⟨M, tree, grown, -⟩
      exact ⟨M, tree, grown.owned, table.nonnull⟩

theorem kernelRun_sat {calls : List (Nat × Nat × PagetablePermission)} :
    Sat (kernelRun ps A calls s)
      (fun (root, t) => ∀ address, (effectiveRights t address pml4Level root).user = false)
      (fun _ => True) := by
  refine ((allocPagetableNode_sat ps {true}).mono (fun _ h => h)
    (fun _ _ => trivial)).bind ?_
  rintro ⟨root, t⟩ ⟨table, -, -, -, -⟩
  have run : Sat (calls.foldlM (fun s (base, size, perm) =>
      addToKernelPagetable ps A root base size perm s) t)
      (fun u => ∃ M, TableAt ps {true} u root M) (fun _ => True) := by
    generalize ({root} : Set Nat) = N at table
    induction calls generalizing t N with
    | nil => exact ⟨N, table⟩
    | cons call calls ih =>
        rw [List.foldlM_cons]
        exact (addToKernelPagetable_shape table).bind (fun u ⟨M, tableM⟩ => ih u M tableM)
  refine run.bind ?_
  rintro u ⟨M, tableM⟩ address
  have tree := tableM.tree
  rw [← ps.lowestLevel_add_topDepth]
  cases ps with
  | kib4 => exact effectiveRights_kernel .kib4 (d := 2) tree
  | mib2 => exact effectiveRights_kernel .mib2 (d := 1) tree

/-- Intermediate entries never restrict or extend a leaf of a compartment table:
the effective rights of an address are those of the last call that covers it,
the calls that created the table included. In a kernel table no address is ever
accessible to user mode. -/
theorem effective_rights {predefined interruptStackMap : List MapEntry} {calls : List TableCall}
    (fits : ∀ e ∈ predefined ++ interruptStackMap, e.Fits ps)
    (kinds : ∀ c ∈ calls, c.OfKind {false}) (valid : ∀ c ∈ calls, c.Valid ps) :
    Sat (createAndRun ps A predefined interruptStackMap calls s)
      (fun (root, t) => ∀ address, effectiveRights t address pml4Level root =
        historyRights ((predefined ++ interruptStackMap).map MapEntry.call ++ calls)
          (address % 2 ^ 48))
      (RefusedTable A {false} ps s) ∧
    ∀ kernelCalls, Sat (kernelRun ps A kernelCalls s)
      (fun (root, t) => ∀ address, (effectiveRights t address pml4Level root).user = false)
      (fun _ => True) := by
  refine ⟨?_, fun _ => kernelRun_sat⟩
  refine (createCompartmentPagetable_sat fits).bind ?_
  rintro ⟨root, t⟩ ⟨⟨N, table, -, start⟩, room⟩
  refine ((runCalls_sat table kinds valid).mono (fun _ h => h) fun f refused =>
    ⟨refused.1, fun enough => refused.2 (room enough)⟩).bind ?_
  rintro u ⟨⟨M, tableM, -, entries⟩, -⟩ address
  have below : address % 2 ^ 48 < 2 ^ 48 := Nat.mod_lt _ (by decide)
  have allKinds : ∀ c ∈ (predefined ++ interruptStackMap).map MapEntry.call ++ calls,
      c.OfKind {false} := List.forall_mem_append.mpr
    ⟨List.forall_mem_map.mpr fun e _ => MapEntry.call_ofKind e, kinds⟩
  obtain ⟨rights, ends⟩ := historyMap_rights ps (a := address % 2 ^ 48) allKinds
  have leaf := (entries _ below).trans (historyMap_append (start _ below))
  rw [← leaf] at rights ends
  rw [← effectiveRights_mod address (Nat.le_refl _), tableM.effectiveRights_eq ends]
  exact rights

/-- A small image with one interrupt stack and one heap block given to the
compartment: the stack is writable but closed to user mode, the block is open. -/
theorem effective_rights_small_image : ∃ root t,
    createAndRun .kib4 .bump
        (predefinedMap .kib4 ⟨0x200000, 0x300000, 0x3ff800, by decide, by decide⟩)
        [⟨⟨0x500000, 0x510000⟩, .forceKernelWrite⟩]
        [.add false 0x600000 0x4000 .compartmentWrite .normal] ⟨fun _ _ => .null, []⟩ =
      .ok (root, t) ∧
    effectiveRights t 0x500000 pml4Level root = ⟨true, true, false⟩ ∧
    effectiveRights t 0x600000 pml4Level root = ⟨true, true, true⟩ := by
  have fits : ∀ e ∈ predefinedMap .kib4 ⟨0x200000, 0x300000, 0x3ff800, by decide, by decide⟩ ++
      [⟨⟨0x500000, 0x510000⟩, .forceKernelWrite⟩], e.Fits .kib4 := by
    intro e he
    simp only [predefinedMap, List.cons_append, List.nil_append, List.mem_cons, List.not_mem_nil,
      or_false] at he
    rcases he with rfl | rfl | rfl | rfl <;>
      exact ⟨by decide, by decide, by decide, by decide⟩
  have kind : TableCall.OfKind {false} (.add false 0x600000 0x4000 .compartmentWrite .normal) := rfl
  have valid : (TableCall.add false 0x600000 0x4000 .compartmentWrite .normal).Valid .kib4 :=
    ⟨by decide, by decide, by decide⟩
  have room : NodeAllocator.bump.Room {false} (PageSize.kib4.tableNodes + 1) [] :=
    NodeAllocator.room_bump (by decide)
  obtain ⟨⟨root, t⟩, run, rights⟩ := (effective_rights (A := .bump) (s := ⟨fun _ _ => .null, []⟩)
    fits (List.forall_mem_singleton.mpr kind) (List.forall_mem_singleton.mpr valid)).1.returns
    fun _ refused => refused.2 room
  exact ⟨root, t, run, (rights 0x500000).trans (by decide), (rights 0x600000).trans (by decide)⟩

end Monza
