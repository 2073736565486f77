import Monza.Compartment.Isolation

/-!
# The answer to a page fault

A fault of user mode is answered in two steps. The handler first decides, from the
ownership map alone, which permission the faulting page gets; whatever it does not grant
ends here. Then it maps the page, and the processor's walk allows the access that has
faulted.

Mapping a page may take a node on every level below the top. Nothing else can fail.
-/

namespace Monza

open Outcome Radix Transition

section OnePage

variable {ps : PageSize} {A : NodeAllocator} {isKernel : Bool} {s : PagetableStore}
variable {d root base : Nat} {perm : PagetablePermission} {type : PagetableType}

/-- A page ends in the entry in which it begins, on every level. -/
theorem pageEnd_le_nextEntryBase (aligned : base % ps.bytes = 0)
    (bound : base + ps.bytes ≤ 2 ^ 48) (low : ps.lowestLevel + d ≤ pml4Level) :
    base + ps.bytes ≤ pagetableNextEntryBase base (ps.lowestLevel + d) := by
  have coverage : pagetableEntryCoverage (ps.lowestLevel + d) ≤ 2 ^ 39 := by
    apply Nat.pow_le_pow_right (by decide)
    rw [pagetableEntryCoverageBits]
    exact Nat.add_le_add_left (Nat.mul_le_mul_left 9 low) 12
  have next := pagetableNextEntryBase_eq base (ps.lowestLevel + d) (by omega)
  apply add_le_of_mod aligned
  · exact pagetableNextEntryBase_mod next (pagetableEntryCoverage_mod ps d)
  · exact lt_pagetableNextEntryBase next

/-- A loop over the entries of a page has one iteration. -/
theorem loop_page {body : Nat → PagetableStore → Result PagetableStore}
    (aligned : base % ps.bytes = 0) (bound : base + ps.bytes ≤ 2 ^ 48)
    (low : ps.lowestLevel + d ≤ pml4Level) :
    loop .diverge (fun addr => decide (addr < u64 (base + ps.bytes)))
      (pagetableNextEntryBase · (ps.lowestLevel + d)) body entryLoopBudget base s =
      body base s := by
  have stop : u64 (base + ps.bytes) = base + ps.bytes := u64_of_lt (by omega)
  have next := pageEnd_le_nextEntryBase aligned bound low
  rw [stop, loop_eq_foldlM (n := 1)]
  · exact List.foldlM_cons.trans (bind_pure _)
  · intro i hi
    rw [Nat.lt_one_iff.mp hi]
    exact decide_eq_true (Nat.lt_add_of_pos_right ps.bytes_pos)
  · exact decide_eq_false (Nat.not_lt.mpr next)
  · rw [entryLoopBudget]
    decide

theorem addToPagetable_page (aligned : base % ps.bytes = 0) (bound : base + ps.bytes ≤ 2 ^ 48)
    (low : ps.lowestLevel + (d + 1) ≤ pml4Level) :
    addToPagetable ps A isKernel (ps.lowestLevel + (d + 1)) root base ps.bytes perm type s =
      (nextRootOrAlloc A isKernel root (pagetableIndex base (ps.lowestLevel + (d + 1))) type s
        >>= fun (nextRoot, s) =>
          addToPagetable ps A isKernel (ps.lowestLevel + d) nextRoot base ps.bytes perm .normal s)
    := by
  have stop : u64 (base + ps.bytes) = base + ps.bytes := u64_of_lt (by omega)
  have next := pageEnd_le_nextEntryBase aligned bound low
  have rest : sub64 (min (u64 (base + ps.bytes))
      (pagetableNextEntryBase base (ps.lowestLevel + (d + 1)))) base = ps.bytes := by
    rw [stop, Nat.min_eq_left next, sub64_of_le (by omega) (Nat.le_add_right _ _),
      Nat.add_sub_cancel_left]
  rw [← Nat.add_assoc, addToPagetable_above (Nat.le_add_right _ _), Nat.add_assoc,
    loop_page aligned bound low, rest]

/-- One node for each level below the top is enough. -/
theorem addToPagetable_page_total (aligned : base % ps.bytes = 0)
    (bound : base + ps.bytes ≤ 2 ^ 48) (low : ps.lowestLevel + d ≤ pml4Level)
    (room : A.Room {isKernel} d s.live) : ∃ t,
      addToPagetable ps A isKernel (ps.lowestLevel + d) root base ps.bytes perm type s = .ok t := by
  induction d generalizing root s type with
  | zero =>
      rw [Nat.add_zero, addToPagetable_lowest, addLeaves]
      exact ⟨_, loop_page (d := 0) aligned bound low⟩
  | succ d ih =>
      rw [addToPagetable_page aligned bound low, nextRootOrAlloc]
      have low' : ps.lowestLevel + d ≤ pml4Level := Nat.le_of_succ_le low
      split
      next =>
        obtain ⟨node, answer, room⟩ := room isKernel rfl
        rw [allocPagetableNode, answer]
        exact ih low' room
      next => exact ih low' room.of_add

end OnePage

/-- Whether the rights of a walk let user mode read or write. -/
def Rights.permitsUser (r : Rights) (isWrite : Bool) : Bool :=
  r.present && r.user && (!isWrite || r.writable)

/-- What a compartment may do at an address: anything with its own memory, and read what
nobody owns. -/
def Granted (P : Platform) (compartment : CompartmentOwner) (ownership : OwnershipMap)
    (address : Nat) (isWrite : Bool) : Prop :=
  P.heap.isHeapAddress address = true ∧
    (OwnershipMap.getMonzaOwner P.unit ownership address = compartment ∨
      isWrite = false ∧ OwnershipMap.getMonzaOwner P.unit ownership address = .null)

/-- The table after a fault that was handled: the access is allowed now, the page has the
rights of the compartment, and all other leaves are as before. -/
structure Served (P : Platform) (root address : Nat) (isWrite own : Bool)
    (s t : PagetableStore) : Prop where
  permitted : (effectiveRights t address pml4Level root).permitsUser isWrite = true
  page : ∀ a ∈ System.faultPage P address, effectiveRights t a pml4Level root = ⟨true, own, true⟩
  others : ∀ a, a < 2 ^ 48 → a ∉ System.faultPage P address →
    getPagetableEntry P.ps t root pml4Level a = getPagetableEntry P.ps s root pml4Level a

namespace System

variable {P : Platform} {s t : System} {compartment : CompartmentOwner} {root address : Nat}
variable {err : BitVec 64} {nodesOf : CompartmentOwner → Set Nat}

/-- The handler decides for a permission exactly if it should. -/
theorem faultPermission_granted {ownership : OwnershipMap} (user : err &&& 0x4#64 ≠ 0#64) :
    (∃ perm, faultPermission P compartment address err ownership = .ok perm) ↔
      Granted P compartment ownership address (err &&& 0x2#64 != 0#64) := by
  constructor
  · rintro ⟨perm, decided⟩
    obtain ⟨-, heap, ⟨own, -⟩ | ⟨-, read, -⟩⟩ := faultPermission_eq_ok.mp decided
    · exact ⟨heap, .inl own⟩
    · exact ⟨heap, .inr ⟨by simpa using read.1, read.2⟩⟩
  · rintro ⟨heap, access⟩
    by_cases own : OwnershipMap.getMonzaOwner P.unit ownership address = compartment
    · exact ⟨_, faultPermission_eq_ok.mpr ⟨user, heap, .inl ⟨own, rfl⟩⟩⟩
    · obtain ⟨read, null⟩ := access.resolve_left own
      have read : err &&& 0x2#64 = 0#64 := by simpa using read
      exact ⟨_, faultPermission_eq_ok.mpr ⟨user, heap, .inr ⟨own, ⟨read, null⟩, rfl⟩⟩⟩

/-- The rights that a decision leads to, and that they suffice. -/
theorem faultPermission_rights {ownership : OwnershipMap} {perm : PagetablePermission}
    (decided : faultPermission P compartment address err ownership = .ok perm) :
    Rights.ofFlags (pagetableLeafPermissions false perm) =
        ⟨true, decide (OwnershipMap.getMonzaOwner P.unit ownership address = compartment), true⟩ ∧
      (Rights.ofFlags (pagetableLeafPermissions false perm)).permitsUser
        (err &&& 0x2#64 != 0#64) = true := by
  obtain ⟨-, -, ⟨own, rfl⟩ | ⟨own, read, rfl⟩⟩ := faultPermission_eq_ok.mp decided
  · have full : Rights.ofFlags (pagetableLeafPermissions false .compartmentWrite) =
        ⟨true, true, true⟩ := by decide
    rw [full, own, decide_eq_true rfl]
    exact ⟨rfl, by simp [Rights.permitsUser]⟩
  · rw [decide_eq_false own, read.1]
    decide

/-- The faulting page in a table of the kernel, once it is mapped. -/
theorem mapPage_served {tables u : PagetableStore} {N : Set Nat} {perm : PagetablePermission}
    {isWrite own : Bool} (table : TableAt P.ps {false} tables root N)
    (heap : P.heap.isHeapAddress address = true)
    (rights : Rights.ofFlags (pagetableLeafPermissions false perm) = ⟨true, own, true⟩)
    (permitted : (Rights.ofFlags (pagetableLeafPermissions false perm)).permitsUser isWrite = true)
    (mapped : addToCompartmentPagetable P.ps P.allocator root (alignDown address P.ps.bytes)
      P.ps.bytes perm tables = .ok u) :
    Served P root address isWrite own tables u ∧ ∃ M, Grown tables u N M := by
  have bound := faultPage_bound heap
  obtain ⟨-, mapped⟩ := guard_eq_ok.mp mapped
  obtain ⟨M, update⟩ := (table.add rfl (alignDown_mod _ _) (Nat.mod_self _) bound).of_ok mapped
  have page : ∀ a ∈ faultPage P address, effectiveRights u a pml4Level root =
      .ofFlags (pagetableLeafPermissions false perm) := by
    intro a ha
    have leaf := update.entry a (Nat.lt_of_lt_of_le ha.2 bound)
    rw [if_pos ⟨ha.1, ha.2⟩] at leaf
    rw [update.table.effectiveRights_eq (by rw [leaf]; exact endsWalk_leafFor), leaf]
    exact rights_leafFor
  refine ⟨⟨?_, fun a ha => (page a ha).trans rights, fun a low outside => ?_⟩, M, update.grown⟩
  · rw [page address (mem_faultPage.mpr rfl)]
    exact permitted
  · exact (update.entry a low).trans (if_neg outside)

/-- Only the allocator of the nodes can keep the page from being mapped. -/
theorem mapPage_total {tables : PagetableStore} {perm : PagetablePermission}
    (heap : P.heap.isHeapAddress address = true)
    (room : P.allocator.Room {false} P.ps.topDepth tables.live) : ∃ u,
      addToCompartmentPagetable P.ps P.allocator root (alignDown address P.ps.bytes) P.ps.bytes
        perm tables = .ok u := by
  rw [addToCompartmentPagetable, if_neg (by simp [alignDown_mod]), ← P.ps.lowestLevel_add_topDepth]
  exact addToPagetable_page_total (alignDown_mod _ _) (faultPage_bound heap)
    (Nat.le_of_eq P.ps.lowestLevel_add_topDepth) room

end System

variable {P : Platform} {s₀ s : System} {events : List Event} {compartment : CompartmentOwner}

/-- A fault of user mode, in any tables that a run of the kernel has built and under any
ownership map. It is handled exactly if the access is granted, as long as there is memory for
nodes. Then the processor allows the access, the page is writable exactly if the compartment
owns it, and no other leaf of any compartment has changed. Whatever is not granted aborts before
the table is touched. -/
theorem page_fault_grants_access {root : Nat} (init : s₀.Initial)
    (run : Run (Event.Step P) s₀ events s) (created : s.roots compartment = some root)
    (u : System) (tables : u.tables = s.tables) (address : Nat) (err : BitVec 64)
    (user : err &&& 0x4#64 ≠ 0#64) :
    (P.allocator.Room {false} P.ps.topDepth u.tables.live →
      ((∃ t, u.pageFaultHandler P compartment address root err = .ok t) ↔
        Granted P compartment u.ownership address (err &&& 0x2#64 != 0#64))) ∧
    (∀ t, u.pageFaultHandler P compartment address root err = .ok t →
      Granted P compartment u.ownership address (err &&& 0x2#64 != 0#64) ∧
      t = { u with tables := t.tables } ∧
      Served P root address (err &&& 0x2#64 != 0#64)
        (decide (OwnershipMap.getMonzaOwner P.unit u.ownership address = compartment))
        u.tables t.tables ∧
      ∀ other r, other ≠ compartment → s.roots other = some r → ∀ a,
        getPagetableEntry P.ps t.tables r pml4Level a =
          getPagetableEntry P.ps u.tables r pml4Level a) ∧
    (¬ Granted P compartment u.ownership address (err &&& 0x2#64 != 0#64) →
      System.faultPermission P compartment address err u.ownership = .error .kabort ∧
      u.pageFaultHandler P compartment address root err = .error .kabort) := by
  obtain ⟨⟨nodesOf, coherent⟩, -⟩ : s.WellFormed P :=
    run.invariant (fun s => s.WellFormed P) (fun _ _ _ wf step => wf.step step) init.wellFormed
  have table := coherent.table compartment root created
  rw [← tables] at table
  refine ⟨fun room => ⟨?_, ?_⟩, ?_, ?_⟩
  · rintro ⟨t, done⟩
    obtain ⟨perm, -, decided, -⟩ := System.pageFaultHandler_cases done
    exact (System.faultPermission_granted user).mp ⟨perm, decided⟩
  · intro granted
    obtain ⟨perm, decided⟩ := (System.faultPermission_granted user).mpr granted
    obtain ⟨mapped, done⟩ : ∃ mapped, addToCompartmentPagetable P.ps P.allocator root
      (alignDown address P.ps.bytes) P.ps.bytes perm u.tables = .ok mapped :=
      System.mapPage_total granted.1 room
    refine ⟨{ u with tables := mapped }, ?_⟩
    rw [System.pageFaultHandler_eq]
    exact bind_eq_ok.mpr ⟨perm, decided, bind_eq_ok.mpr ⟨mapped, done, rfl⟩⟩
  · intro t done
    obtain ⟨perm, tables', decided, mapped, rfl⟩ := System.pageFaultHandler_cases done
    have granted := (System.faultPermission_granted user).mp ⟨perm, decided⟩
    obtain ⟨rights, permitted⟩ := System.faultPermission_rights decided
    obtain ⟨served, M, grown⟩ := System.mapPage_served table granted.1 rights permitted mapped
    refine ⟨granted, rfl, served, fun other r ne known a => ?_⟩
    have elsewhere := coherent.table other r known
    rw [← tables] at elsewhere
    apply elsewhere.entryAt_other grown
    exact coherent.apart other compartment ne (by simp [known]) (by simp [created])
  · intro refused
    have aborts : System.faultPermission P compartment address err u.ownership =
        .error .kabort := by
      cases decided : System.faultPermission P compartment address err u.ownership with
      | ok perm => exact absurd ((System.faultPermission_granted user).mp ⟨perm, decided⟩) refused
      | error fault => rw [System.faultPermission_eq_error decided]
    rw [System.pageFaultHandler_eq, aborts]
    exact ⟨rfl, rfl⟩

/-- A compartment writes to memory of its own that its table does not map yet. -/
theorem page_fault_grants_access_own_page : ∃ s t root,
    Run (Event.Step smallPlatform) smallBoot [.create ⟨1⟩] s ∧ s.roots ⟨1⟩ = some root ∧
    { s with ownership := s.ownership.setOwner 16 ⟨1⟩ }.pageFaultHandler smallPlatform ⟨1⟩ 0x40008
      root 0x6#64 = .ok t ∧
    (effectiveRights s.tables 0x40008 pml4Level root).permitsUser true = false ∧
    (effectiveRights t.tables 0x40008 pml4Level root).permitsUser true = true := by
  have simulated : (Event.simulate smallPlatform [.create ⟨1⟩] smallBoot).map (fun s =>
      (s.roots ⟨1⟩, s.tables.live,
        (effectiveRights s.tables 0x40008 pml4Level 0x2000).permitsUser true)) =
      some (some 0x2000, [0x5000, 0x4000, 0x3000, 0x2000, 0x1000], false) := by decide +kernel
  obtain ⟨s, reached, observed⟩ := Option.map_eq_some_iff.mp simulated
  obtain ⟨created, observed⟩ := Prod.mk.inj observed
  obtain ⟨live, absent⟩ := Prod.mk.inj observed
  have run := Event.simulate_run reached
  have owned : OwnershipMap.getMonzaOwner smallPlatform.unit (s.ownership.setOwner 16 ⟨1⟩)
      0x40008 = ⟨1⟩ := rfl
  obtain ⟨returns, served, -⟩ := page_fault_grants_access smallBoot_initial run created
    { s with ownership := s.ownership.setOwner 16 ⟨1⟩ } rfl 0x40008 0x6#64 (by decide)
  obtain ⟨t, done⟩ := (returns (by
    change NodeAllocator.bump.Room {false} 3 s.tables.live
    rw [live]
    exact NodeAllocator.room_bump (by decide))).mpr ⟨by decide, .inl owned⟩
  exact ⟨s, t, 0x2000, run, created, done, absent, (served t done).2.2.1.permitted⟩

end Monza
