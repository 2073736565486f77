import Monza.Pagetable.Rights

/-!
# Translation by the kernel table

What an access of the kernel reaches: the address that the walk of the processor
ends with, and whether the entries on the path allow writes. For a kernel table that
was built by calls of `add_to_kernel_pagetable` this is the identity, with the access
that the last call covering the address gives.
-/

namespace Monza

open Outcome Radix

/-- What an entry that ends a walk maps an address to, and whether it may be written. -/
def PagetableEntry.target (e : PagetableEntry) (coverage address : Nat) : Option (Nat × Bool) :=
  if e.has ptePresent then some (e.nextLevel + address % coverage, e.has pteWritable) else none

/-- The walk of the processor from the node `table` at `level`, for an access of the kernel.
A write needs the writable flag in every entry on the path. -/
def translate (s : PagetableStore) (address : Nat) : Nat → Nat → Option (Nat × Bool)
  | 0, table =>
    (s.nodes table (pagetableIndex address 0)).target (pagetableEntryCoverage 0) address
  | level + 1, table =>
    let entry := s.nodes table (pagetableIndex address (level + 1))
    if entry.has ptePresent = false then none
    else if entry.isLargeMapping = true ∧ level + 1 < pml4Level then
      entry.target (pagetableEntryCoverage (level + 1)) address
    else
      (translate s address level entry.nextLevel).map fun r => (r.1, entry.has pteWritable && r.2)

variable {ps : PageSize} {A : NodeAllocator} {K : Set Bool} {s t : PagetableStore}
variable {d root address : Nat} {N : Set Nat}

@[simp] theorem PagetableEntry.target_null (coverage address : Nat) :
    PagetableEntry.null.target coverage address = none := by
  rw [target, has_null]
  rfl

theorem PagetableEntry.target_of_absent {e : PagetableEntry} (h : e.has ptePresent = false)
    (coverage address : Nat) : e.target coverage address = none := by
  rw [target, h]
  rfl

section Step

variable (level : Nat)

theorem translate_of_null (h : s.nodes root (pagetableIndex address (level + 1)) = .null) :
    translate s address (level + 1) root = none := by
  rw [translate, h]
  rfl

/-- Entries between the levels neither end a walk nor restrict it. -/
theorem translate_of_nextLevel {isKernel : Bool} {ptr : Nat} {type : PagetableType}
    (h : s.nodes root (pagetableIndex address (level + 1)) = .setNextLevel isKernel ptr type)
    (nonnull : ptr ≠ 0) (aligned : ptr % 4096 = 0) (below : ptr < 2 ^ 52) :
    translate s address (level + 1) root = translate s address level ptr := by
  have small := not_isLargeMapping_of_inner (K := Set.univ)
    (Or.inr ⟨isKernel, ptr, type, trivial, nonnull, aligned, below, rfl⟩)
  have flags : (PagetableEntry.setNextLevel isKernel ptr type).has ptePresent = true ∧
      (PagetableEntry.setNextLevel isKernel ptr type).has pteWritable = true := by
    rw [PagetableEntry.has_setNextLevel aligned (by decide),
      PagetableEntry.has_setNextLevel aligned (by decide)]
    cases isKernel <;> cases type <;> decide
  simp only [translate, h]
  rw [flags.1, flags.2, if_neg (by simp), small, if_neg (by simp),
    PagetableEntry.nextLevel_setNextLevel aligned below]
  simp only [Bool.true_and, Prod.mk.eta, Option.map_id']

end Step

/-- The walk ends with the leaf that the software finds. -/
theorem translate_eq_leaf (tree : Tree (tableCoding K) s.nodes d root N)
    (ends : (lookup (tableCoding K) s.nodes (addressPath ps address) d root).EndsWalk ps) :
    translate s address (ps.lowestLevel + d) root =
      (lookup (tableCoding K) s.nodes (addressPath ps address) d root).target ps.bytes address := by
  induction d generalizing root N with
  | zero =>
      cases ps with
      | kib4 => rfl
      | mib2 =>
          change translate s address (0 + 1) root =
            (s.nodes root (pagetableIndex address (0 + 1))).target _ address
          change (s.nodes root (pagetableIndex address (0 + 1))).EndsWalk .mib2 at ends
          rw [translate]
          by_cases h : (s.nodes root (pagetableIndex address (0 + 1))).has ptePresent = false
          · simp only [h, if_true]
            exact (PagetableEntry.target_of_absent h _ _).symm
          · have large := ends (by simpa using h) rfl
            rw [if_neg h, if_pos ⟨large, by decide⟩]
            rfl
  | succ d ih =>
      rcases tree.inner (addressPath ps address (d + 1)) with
        hnull | ⟨isKernel, ptr, type, -, nonnull, aligned, below, hnext⟩
      · have hc := (tableCoding_child_eq_none (K := K)).mpr PagetableEntry.nextLevel_null
        rw [← Nat.add_assoc, translate_of_null (ps.lowestLevel + d) hnull, lookup, hnull, hc]
        exact (PagetableEntry.target_null _ _).symm
      · have hc : (tableCoding K).child
            (s.nodes root (addressPath ps address (d + 1))) = some ptr := by
          rw [hnext, tableCoding_child_eq_some,
            PagetableEntry.nextLevel_setNextLevel aligned below]
          exact ⟨nonnull, rfl⟩
        rw [lookup, hc] at ends ⊢
        rw [← Nat.add_assoc, translate_of_nextLevel (ps.lowestLevel + d) hnext nonnull aligned
          below]
        obtain ⟨C, slots⟩ := tree
        exact ih (slots.below _ ptr hc) ends

/-- The access to a page of the kernel table: none, reading, or writing as well. -/
def PagetablePermission.kernelAccess : PagetablePermission → Option Bool
  | .noAccess => none
  | .kernelRead | .compartmentRead => some false
  | .kernelWrite | .forceKernelWrite | .compartmentWrite => some true

/-- A leaf of the kernel table maps its page to itself. -/
theorem TableCall.target_value {base size a : Nat} {perm : PagetablePermission}
    {type : PagetableType} (bound : a < 2 ^ 52) :
    ((TableCall.add true base size perm type).value ps a).target ps.bytes a =
      perm.kernelAccess.map fun w => (a, w) := by
  have aligned : a / ps.bytes * ps.bytes % 4096 = 0 := by
    cases ps <;> simp only [PageSize.bytes] <;> omega
  have page : ((TableCall.add true base size perm type).value ps a).nextLevel =
      a / ps.bytes * ps.bytes := by
    rw [TableCall.value, BitVec.or_assoc]
    refine PagetableEntry.nextLevel_mk aligned ?_ ?_
    · exact Nat.lt_of_le_of_lt (Nat.div_mul_le_self _ _) bound
    · cases ps <;> cases perm <;> decide
  have same : a / ps.bytes * ps.bytes + a % ps.bytes = a := Nat.div_add_mod' a ps.bytes
  rw [PagetableEntry.target, page, same, has_value (by decide), has_value (by decide)]
  cases ps <;> cases perm <;> rfl

/-- A call of `add_to_kernel_pagetable`, as a call at the top level. -/
def kernelCall (c : Nat × Nat × PagetablePermission) : TableCall :=
  .add true c.1 c.2.1 c.2.2 .normal

/-- What the last call that covers an address allows there. -/
def lastAccess (calls : List (Nat × Nat × PagetablePermission)) (a : Nat) : Option Bool :=
  (calls.reverse.find? fun c => (kernelCall c).covers a).bind fun c => c.2.2.kernelAccess

section LastAccess

variable {calls : List (Nat × Nat × PagetablePermission)} {c : Nat × Nat × PagetablePermission}
variable {a : Nat}

theorem kernelCall_covers : (kernelCall c).covers a = true ↔ c.1 ≤ a ∧ a < c.1 + c.2.1 := by
  rw [TableCall.covers, decide_eq_true_iff]
  rfl

theorem lastAccess_append_covered (h : (kernelCall c).covers a = true) :
    lastAccess (calls ++ [c]) a = c.2.2.kernelAccess := by
  rw [lastAccess, List.reverse_append, List.reverse_singleton, List.singleton_append,
    List.find?_cons, h]
  rfl

/-- Where all calls agree, their order does not matter. -/
theorem lastAccess_of_all {access : Option Bool}
    (covered : ∃ c ∈ calls, (kernelCall c).covers a = true)
    (all : ∀ c ∈ calls, (kernelCall c).covers a = true → c.2.2.kernelAccess = access) :
    lastAccess calls a = access := by
  obtain ⟨c, mem, covers⟩ := covered
  rw [lastAccess]
  cases found : calls.reverse.find? fun c => (kernelCall c).covers a with
  | none => exact absurd covers (List.find?_eq_none.mp found c (List.mem_reverse.mpr mem))
  | some last =>
      have last_mem := List.mem_reverse.mp (List.mem_of_find?_eq_some found)
      exact all last last_mem (List.find?_some (p := fun c => (kernelCall c).covers a) found)

theorem historyMap_target (bound : a < 2 ^ 52) :
    (historyMap ps (fun _ => .null) (calls.map kernelCall) a).target ps.bytes a =
      (lastAccess calls a).map fun w => (a, w) := by
  rw [historyMap, lastAccess, ← List.map_reverse, List.find?_map]
  simp only [Function.comp_def]
  cases calls.reverse.find? fun c => (kernelCall c).covers a with
  | none => exact PagetableEntry.target_null _ _
  | some c => exact TableCall.target_value bound

end LastAccess

/-- Calls of `add_to_kernel_pagetable`, one after the other. -/
def addCalls (ps : PageSize) (A : NodeAllocator) (root : Nat)
    (calls : List (Nat × Nat × PagetablePermission)) (s : PagetableStore) :
    Result PagetableStore :=
  calls.foldlM (fun s c => addToKernelPagetable ps A root c.1 c.2.1 c.2.2 s) s

section AddCalls

variable {calls later : List (Nat × Nat × PagetablePermission)}
variable {c : Nat × Nat × PagetablePermission}

theorem addCalls_append : addCalls ps A root (calls ++ later) s = .ok t ↔
    ∃ u, addCalls ps A root calls s = .ok u ∧ addCalls ps A root later u = .ok t := by
  rw [addCalls, List.foldlM_append]
  exact bind_eq_ok

theorem addCalls_singleton :
    addCalls ps A root [c] s = addToKernelPagetable ps A root c.1 c.2.1 c.2.2 s := by
  rw [addCalls, List.foldlM_cons]
  cases addToKernelPagetable ps A root c.1 c.2.1 c.2.2 s <;> rfl

/-- A call that is made under a condition. -/
theorem addCalls_ite {p : Prop} [Decidable p] :
    addCalls ps A root (if p then [c] else []) s =
      if p then addToKernelPagetable ps A root c.1 c.2.1 c.2.2 s else .ok s := by
  by_cases h : p
  · rw [if_pos h, if_pos h, addCalls_singleton]
  · rw [if_neg h, if_neg h]
    rfl

theorem kernelRun_eq : kernelRun ps A calls s = (allocPagetableNode A true s >>= fun r =>
    addCalls ps A r.1 calls r.2 >>= fun t => .ok (r.1, t)) := rfl

/-- Calls that were not aborted are of whole pages, and nothing but calls at the top level. -/
theorem runCalls_of_addCalls (run : addCalls ps A root calls s = .ok t) :
    (∀ c ∈ calls, c.1 % ps.bytes = 0 ∧ c.2.1 % ps.bytes = 0) ∧
      runCalls ps A root (calls.map kernelCall) s = .ok t := by
  induction calls generalizing s with
  | nil => exact ⟨by simp, run⟩
  | cons c calls ih =>
      rw [addCalls, List.foldlM_cons] at run
      obtain ⟨u, first, rest⟩ := bind_eq_ok.mp run
      obtain ⟨aligned, first⟩ := guard_eq_ok.mp first
      obtain ⟨later, rest⟩ := ih rest
      have here := not_or.mp aligned
      refine ⟨List.forall_mem_cons.mpr ⟨⟨not_not.mp here.1, not_not.mp here.2⟩, later⟩, ?_⟩
      rw [runCalls, List.map_cons, List.foldlM_cons]
      exact bind_eq_ok.mpr ⟨u, first, rest⟩

end AddCalls

/-- A kernel table maps addresses to themselves, as the last call says. -/
theorem translate_of_kernelRun {calls : List (Nat × Nat × PagetablePermission)}
    (run : kernelRun ps A calls s = .ok (root, t)) (bound : ∀ c ∈ calls, c.1 + c.2.1 ≤ 2 ^ 48)
    {a : Nat} (below : a < 2 ^ 48) :
    translate t a pml4Level root = (lastAccess calls a).map fun w => (a, w) := by
  rw [kernelRun_eq] at run
  obtain ⟨⟨root', u⟩, alloc, run⟩ := bind_eq_ok.mp run
  obtain ⟨t', run, same⟩ := bind_eq_ok.mp run
  cases same
  obtain ⟨table, zero, -, -, -⟩ := (allocPagetableNode_sat ps {true}).of_ok alloc
  obtain ⟨aligned, run⟩ := runCalls_of_addCalls run
  have kinds : ∀ c ∈ calls.map kernelCall, c.OfKind {true} :=
    List.forall_mem_map.mpr fun c _ => rfl
  have valid : ∀ c ∈ calls.map kernelCall, c.Valid ps :=
    List.forall_mem_map.mpr fun c mem => ⟨(aligned c mem).1, (aligned c mem).2, bound c mem⟩
  obtain ⟨⟨M, tableM, -, entries⟩, -⟩ := (runCalls_sat table kinds valid).of_ok run
  have leaf := entries a below
  rw [show entryAt ps u root' = fun _ => .null from funext zero, tableM.entryAt_eq] at leaf
  have ends : (historyMap ps (fun _ => .null) (calls.map kernelCall) a).EndsWalk ps := by
    rw [historyMap]
    split
    next c _ => exact c.endsWalk_value a
    next => exact PagetableEntry.endsWalk_null
  rw [← ps.lowestLevel_add_topDepth, translate_eq_leaf tableM.tree (leaf ▸ ends), leaf]
  exact historyMap_target (Nat.lt_of_lt_of_le below (by decide))

end Monza
