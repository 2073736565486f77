import Monza.Pagetable.Refinement

/-!
# Histories of page table calls

A history is a list of top-level calls on one root. Its meaning is a map from
addresses to entries that only looks at the last call covering the address. The
table built by running the history is that map, and the run can only fail when
the allocator refuses a node.
-/

namespace Monza

open Outcome Radix

/-- A call at `PML4_LEVEL`. Removal does not depend on the kind of the table. -/
inductive TableCall where
  | add (isKernel : Bool) (base size : Nat) (perm : PagetablePermission) (type : PagetableType)
  | remove (base size : Nat)
  deriving DecidableEq, Repr

namespace TableCall

def base : TableCall → Nat
  | add _ base _ _ _ => base
  | remove base _ => base

def size : TableCall → Nat
  | add _ _ size _ _ => size
  | remove _ size => size

def run (ps : PageSize) (A : NodeAllocator) (root : Nat) :
    TableCall → PagetableStore → Result PagetableStore
  | add isKernel base size perm type, s =>
      addToPagetable ps A isKernel pml4Level root base size perm type s
  | remove base size, s => removeFromPagetable ps pml4Level root base size s

/-- The calls the refinement speaks about: whole pages of the lower half. -/
structure Valid (ps : PageSize) (c : TableCall) : Prop where
  aligned : c.base % ps.bytes = 0
  alignedSize : c.size % ps.bytes = 0
  bound : c.base + c.size ≤ 2 ^ 48

/-- Additions are made for tables of the kinds `K`. -/
def OfKind (K : Set Bool) : TableCall → Prop
  | add isKernel _ _ _ _ => isKernel ∈ K
  | remove _ _ => True

def covers (c : TableCall) (a : Nat) : Bool := decide (c.base ≤ a ∧ a < c.base + c.size)

/-- The flag that marks leaves above the lowest hardware level. -/
def largePageFlag : PageSize → BitVec 64
  | .kib4 => 0#64
  | .mib2 => ptePagesize

/-- The abstract entry of an address after the call, if the call covers it: the
identity mapping of its page with the flags of the permission, or nothing. -/
def value (ps : PageSize) : TableCall → Nat → PagetableEntry
  | add isKernel _ _ perm _, a =>
      ⟨BitVec.ofNat 64 (a / ps.bytes * ps.bytes) ||| pagetableLeafPermissions isKernel perm |||
        largePageFlag ps⟩
  | remove _ _, _ => .null

end TableCall

/-- Run a history from the oldest call on. -/
def runCalls (ps : PageSize) (A : NodeAllocator) (root : Nat) (calls : List TableCall)
    (s : PagetableStore) : Result PagetableStore :=
  calls.foldlM (fun t c => c.run ps A root t) s

/-- The abstract map of a history: the last call that covers the address decides. -/
def historyMap (ps : PageSize) (old : Nat → PagetableEntry) (calls : List TableCall)
    (a : Nat) : PagetableEntry :=
  match calls.reverse.find? (·.covers a) with
  | some c => c.value ps a
  | none => old a

variable {ps : PageSize} {A : NodeAllocator} {K : Set Bool} {root : Nat}
variable {s : PagetableStore} {N : Set Nat} {c : TableCall} {calls : List TableCall}

theorem runCalls_append (calls later : List TableCall) :
    runCalls ps A root (calls ++ later) s =
      (runCalls ps A root calls s >>= runCalls ps A root later) :=
  List.foldlM_append

theorem leafFor_normal {isKernel : Bool} {perm : PagetablePermission} (type : PagetableType)
    (base size : Nat) :
    leafFor ps isKernel .normal perm = (TableCall.add isKernel base size perm type).value ps := by
  funext a
  rw [leafFor, PagetableEntry.setLeaf, TableCall.value, alignDown, pagetableTypePermissions,
    BitVec.or_zero]
  cases ps <;> rfl

theorem historyMap_cons (old : Nat → PagetableEntry) (a : Nat) :
    historyMap ps old (c :: calls) a =
      historyMap ps (fun b => if c.base ≤ b ∧ b < c.base + c.size then c.value ps b else old b)
        calls a := by
  rw [historyMap, historyMap, List.reverse_cons, List.find?_append]
  cases calls.reverse.find? (·.covers a) with
  | some c' => rfl
  | none =>
      by_cases h : c.base ≤ a ∧ a < c.base + c.size
      · have hc : c.covers a = true := decide_eq_true h
        simp [hc, h]
      · have hc : c.covers a = false := decide_eq_false h
        simp [hc, h]

theorem historyMap_append {old new : Nat → PagetableEntry} {later : List TableCall} {a : Nat}
    (h : new a = historyMap ps old calls a) :
    historyMap ps new later a = historyMap ps old (calls ++ later) a := by
  rw [historyMap, historyMap, List.reverse_append, List.find?_append]
  cases later.reverse.find? (·.covers a) with
  | some c => rfl
  | none => exact h

/-- One call is one update of the map. -/
theorem TableCall.run_sat (table : TableAt ps K s root N) (kind : c.OfKind K)
    (valid : c.Valid ps) :
    Sat (c.run ps A root s)
      (fun t => (∃ M, MapUpdate ps K root c.base (c.base + c.size) (c.value ps) N s t M) ∧
        Fills A K ps.topDepth root s t)
      (RefusedAlloc A K ps.topDepth root s) := by
  cases c with
  | add isKernel base size perm type =>
      rw [← leafFor_normal]
      exact (table.add kind valid.aligned valid.alignedSize valid.bound).and (table.add_fills kind)
  | remove base size =>
      exact ((table.remove valid.aligned valid.alignedSize valid.bound).and
        (table.remove_fills A)).mono (fun _ h => h) fun _ h => h.elim

/-- A history of calls computes its map. -/
theorem runCalls_sat (table : TableAt ps K s root N) (kinds : ∀ c ∈ calls, c.OfKind K)
    (valid : ∀ c ∈ calls, c.Valid ps) :
    Sat (runCalls ps A root calls s)
      (fun t => (∃ M, TableAt ps K t root M ∧ Grown s t N M ∧ ∀ a, a < 2 ^ 48 →
        entryAt ps t root a = historyMap ps (entryAt ps s root) calls a) ∧
        Fills A K ps.topDepth root s t)
      (RefusedAlloc A K ps.topDepth root s) := by
  induction calls generalizing s N with
  | nil => exact ⟨⟨N, table, Grown.refl table.inUse, fun _ _ => rfl⟩, .refl s⟩
  | cons c calls ih =>
      rw [List.forall_mem_cons] at kinds valid
      rw [runCalls, List.foldlM_cons]
      refine (TableCall.run_sat table kinds.1 valid.1).bind ?_
      rintro t ⟨⟨M, update⟩, fills⟩
      refine (ih update.table kinds.2 valid.2).mono ?_ fun _ refused => fills.refused refused
      rintro u ⟨⟨L, tableL, grownL, entries⟩, later⟩
      refine ⟨⟨L, tableL, update.grown.trans grownL, fun a ha => ?_⟩, fills.trans later⟩
      rw [entries a ha, historyMap_cons, historyMap, historyMap, update.entry a ha]

theorem TableCall.ofKind_univ (c : TableCall) : c.OfKind Set.univ := by
  cases c <;> trivial

/-- From a zeroed root, every history of whole-page calls below `2 ^ 48` returns and yields the
map of that history, for small and large pages. From the state it reaches, every further call
returns and changes no entry outside its own range. The allocator has to have as many nodes as a
full table, however many calls there are. -/
theorem pagetable_refines_map (inUse : root ∈ s.live) (nonnull : root ≠ 0)
    (zeroed : ∀ i, s.nodes root i = .null) (room : A.Room Set.univ ps.tableNodes s.live)
    (valid : ∀ c ∈ calls, c.Valid ps) :
    ∃ t, runCalls ps A root calls s = .ok t ∧
      (∀ a, a < 2 ^ 48 → getPagetableEntry ps t root pml4Level a =
        historyMap ps (fun _ => .null) calls a) ∧
      ∀ c : TableCall, c.Valid ps → ∃ u, c.run ps A root t = .ok u ∧
        ∀ a, a < 2 ^ 48 → c.covers a = false →
          getPagetableEntry ps u root pml4Level a = getPagetableEntry ps t root pml4Level a := by
  have table : TableAt ps Set.univ s root {root} := TableAt.of_zeroed inUse nonnull zeroed
  have start : entryAt ps s root = fun _ => .null := by
    funext a
    rw [table.entryAt_eq]
    exact lookup_of_zero zeroed _
  have room : A.Room Set.univ (vacant Set.univ s ps.topDepth root + 0) s.live := by
    rw [Nat.add_zero, vacant_of_zeroed zeroed]
    exact room
  obtain ⟨t, run, ⟨M, tableM, -, entries⟩, fills⟩ :=
    (runCalls_sat table (fun c _ => c.ofKind_univ) valid).returns fun _ refused => refused.2 room
  refine ⟨t, run, fun a ha => ?_, fun c hc => ?_⟩
  · rw [← start]
    exact entries a ha
  · obtain ⟨u, call, ⟨L, update⟩, -⟩ := (TableCall.run_sat tableM c.ofKind_univ hc).returns
      fun _ refused => refused.2 (fills 0 room)
    refine ⟨u, call, fun a ha outside => ?_⟩
    have entry := update.entry a ha
    rwa [if_neg (of_decide_eq_false outside)] at entry

/-- Mapping two pages and unmapping the first of them, from a single zeroed node. -/
theorem pagetable_refines_map_two_pages : ∃ t,
    runCalls .kib4 .bump 4096
        [.add false 0x200000 0x2000 .compartmentWrite .normal, .remove 0x200000 0x1000]
        ⟨fun _ _ => .null, [4096]⟩ = .ok t ∧
      getPagetableEntry .kib4 t 4096 pml4Level 0x200000 = .null ∧
      getPagetableEntry .kib4 t 4096 pml4Level 0x201abc = ⟨0x201007⟩ := by
  have valid : ∀ c ∈ [TableCall.add false 0x200000 0x2000 .compartmentWrite .normal,
      .remove 0x200000 0x1000], c.Valid .kib4 := by
    simp only [List.forall_mem_cons, List.not_mem_nil, false_imp_iff, implies_true, and_true]
    exact ⟨⟨by decide, by decide, by decide⟩, ⟨by decide, by decide, by decide⟩⟩
  obtain ⟨t, run, entries, -⟩ := pagetable_refines_map
    (s := ⟨fun _ _ => .null, [4096]⟩) (List.mem_singleton.mpr rfl) (by decide) (fun _ => rfl)
    (NodeAllocator.room_bump (by decide)) valid
  exact ⟨t, run, (entries 0x200000 (by decide)).trans (by decide),
    (entries 0x201abc (by decide)).trans (by decide)⟩

end Monza
