import Monza.Compartment.Refinement
import Monza.Pagetable.Rights

/-!
# Isolation of compartments

Write isolation holds in every state of every run: a page that the table of a
compartment opens for user writes belongs to that compartment.

Read isolation does not. A read fault on memory nobody owns maps it, and a later
allocation of that memory by another compartment does not take the mapping away.
It holds in the runs whose allocations only take memory that no other compartment
can read, and each allocation outside this condition breaks it.
-/

namespace Monza

open Outcome Radix Transition

namespace PagetableEntry

/-- Present, writable and user at the leaf. -/
def UserWritable (e : PagetableEntry) : Prop := e.rights = ⟨true, true, true⟩

def UserReadable (e : PagetableEntry) : Prop := e.rights.present = true ∧ e.rights.user = true

instance (e : PagetableEntry) : Decidable e.UserWritable :=
  inferInstanceAs (Decidable (e.rights = ⟨true, true, true⟩))

instance (e : PagetableEntry) : Decidable e.UserReadable :=
  inferInstanceAs (Decidable (e.rights.present = true ∧ e.rights.user = true))

end PagetableEntry

theorem rights_leafFor {ps : PageSize} {perm : PagetablePermission} {a : Nat} :
    (leafFor ps false .normal perm a).rights = .ofFlags (pagetableLeafPermissions false perm) := by
  rw [leafFor_normal .normal 0 0]
  exact TableCall.rights_value

theorem endsWalk_leafFor {ps : PageSize} {perm : PagetablePermission} {a : Nat} :
    (leafFor ps false .normal perm a).EndsWalk ps := by
  rw [leafFor_normal .normal 0 0]
  exact TableCall.endsWalk_value _ _

namespace Platform

variable {P : Platform} {a : Nat}

/-- Outside the maps of the creation, a new table is empty. -/
theorem initial_of_uncovered (h : ∀ c ∈ P.creationCalls, c.covers a = false) :
    P.policy.initial a = .null := by
  have find : P.creationCalls.reverse.find? (·.covers a) = none := by
    rw [List.find?_eq_none]
    intro c hc
    rw [h c (List.mem_reverse.mp hc)]
    exact Bool.false_ne_true
  simp only [policy, historyMap, find, ite_self]

/-- Inside, its leaf comes from an entry of the maps. -/
theorem initial_of_covered {c : TableCall} (hc : c ∈ P.creationCalls) (h : c.covers a = true)
    (ha : a < 2 ^ 48) : ∃ e ∈ predefinedMap P.ps P.layout ++ P.interruptStackMap,
      e.call.covers a = true ∧ P.policy.initial a = e.call.value P.ps a := by
  simp only [policy, historyMap, if_pos ha]
  cases hfind : P.creationCalls.reverse.find? (·.covers a) with
  | none => exact absurd h (List.find?_eq_none.mp hfind c (List.mem_reverse.mpr hc))
  | some last =>
      have hmem := List.mem_reverse.mp (List.mem_of_find?_eq_some hfind)
      obtain ⟨e, he, rfl⟩ := List.mem_map.mp hmem
      exact ⟨e, he, List.find?_some (p := fun c => TableCall.covers c a) hfind, rfl⟩

theorem initial_cases (P : Platform) (a : Nat) : P.policy.initial a = .null ∨
    ∃ e ∈ predefinedMap P.ps P.layout ++ P.interruptStackMap,
      e.call.covers a = true ∧ P.policy.initial a = e.call.value P.ps a := by
  by_cases ha : a < 2 ^ 48
  · by_cases covered : ∃ c ∈ P.creationCalls, c.covers a = true
    · obtain ⟨c, hc, h⟩ := covered
      exact Or.inr (initial_of_covered hc h ha)
    · exact Or.inl (initial_of_uncovered fun c hc => by
        rw [← Bool.not_eq_true]
        exact fun h => covered ⟨c, hc, h⟩)
  · exact Or.inl (if_neg ha)

theorem mem_maps {e : MapEntry} (h : e ∈ predefinedMap P.ps P.layout ++ P.interruptStackMap) :
    e.perm = .noAccess ∨ e.perm = .kernelRead ∨ e.perm = .kernelWrite ∨
      e.perm = .forceKernelWrite := by
  simp only [predefinedMap, interruptStackMap, List.cons_append, List.nil_append, List.mem_cons,
    List.not_mem_nil, or_false] at h
  rcases h with rfl | rfl | rfl | rfl <;> simp

/-- Of the maps, only the entry below the image has memory that can get an owner. -/
theorem below_image_of_grantable {e : MapEntry} (h : a ∈ P.policy.grantable)
    (he : e ∈ predefinedMap P.ps P.layout ++ P.interruptStackMap)
    (covers : e.call.covers a = true) : e = ⟨.ofBounds 0 P.layout.elfStart, .noAccess⟩ := by
  obtain ⟨-, image, unstacked⟩ := h
  have inside := (P.fits e he).covers_iff.mp covers
  have writable := P.layout.writableAfterStart
  have reached : P.layout.elfWritableStart ≤ P.imageEnd := by
    rw [imageEnd, AddressRange.alignUpEnd, AddressRange.ofBounds_stop, AddressRange.ofBounds_start]
    exact Nat.le_max_left ..
  simp only [predefinedMap, interruptStackMap, List.cons_append, List.nil_append, List.mem_cons,
    List.not_mem_nil, or_false] at he
  rcases he with rfl | rfl | rfl | rfl
  · rfl
  · simp only [AddressRange.ofBounds_start, AddressRange.ofBounds_stop] at inside
    omega
  · have start : P.layout.elfWritableStart ≤ a := inside.1
    have stop : a < P.imageEnd := inside.2
    omega
  · rw [AddressRange.overlaps_iff.mpr inside] at unstacked
    cases unstacked

theorem absent_of_grantable (h : a ∈ P.policy.grantable) :
    (P.policy.initial a).rights.present = false := by
  rcases P.initial_cases a with null | ⟨e, he, covers, value⟩
  · rw [null]
    decide
  · rw [value, below_image_of_grantable h he covers, MapEntry.call, TableCall.rights_value]
    change (Rights.ofFlags (pagetableLeafPermissions false .noAccess)).present = false
    decide

theorem not_userWritable_initial (P : Platform) (a : Nat) :
    ¬ (P.policy.initial a).UserWritable := by
  rcases P.initial_cases a with h | ⟨e, he, -, h⟩
  · rw [h]
    decide
  · rw [h, PagetableEntry.UserWritable, MapEntry.call, TableCall.rights_value]
    rcases mem_maps he with hp | hp | hp | hp <;> rw [hp] <;> decide

theorem not_userWritable_shared (P : Platform) (a : Nat) : ¬ (P.policy.shared a).UserWritable := by
  change ¬ (leafFor P.ps false .normal .compartmentRead a).UserWritable
  rw [PagetableEntry.UserWritable, rights_leafFor]
  decide

theorem not_userWritable_blank (P : Platform) : ¬ P.policy.blank.UserWritable := by
  change ¬ PagetableEntry.null.UserWritable
  decide

end Platform

variable {P : Platform} {s₀ s t : System} {events : List Event}

/-- A property of leaves that all steps of a run keep. There are no leaves at first. -/
theorem leaves_of_run {step : System → Event → System → Prop}
    {Q : CompartmentOwner → Nat → CompartmentOwner → PagetableEntry → Prop}
    (init : s₀.Initial) (run : Run step s₀ events s)
    (sub : ∀ s e t, step s e t → e.Step P s t)
    (stable : ∀ s e t, step s e t → ∀ as, e.Actions P as →
      (∀ a ∈ as.head?, Ownership.Stable P.policy Q (s.abs P) a) ∧
        ∀ a ∈ as.tail, ∀ u, Ownership.Stable P.policy Q u a) :
    s.WellFormed P ∧ Ownership.Leaves Q (s.abs P) := by
  refine run.invariant (fun s => s.WellFormed P ∧ Ownership.Leaves Q (s.abs P)) ?_
    ⟨init.wellFormed, fun o f x h => ?_⟩
  · rintro s e t ⟨wf, leaves⟩ hstep
    exact ⟨wf.step (sub s e t hstep), (sub s e t hstep).leaves wf leaves (stable s e t hstep)⟩
  · simp [System.abs, init.roots] at h

/-- Reading a leaf of the abstract view back from the page table. -/
theorem leaf_of_leaves {Q : CompartmentOwner → Nat → CompartmentOwner → PagetableEntry → Prop}
    (leaves : Ownership.Leaves Q (s.abs P)) {o : CompartmentOwner} {root a : Nat}
    (h : s.roots o = some root) (ha : a < 2 ^ 48) :
    Q o a (OwnershipMap.getMonzaOwner P.unit s.ownership a)
      (getPagetableEntry P.ps s.tables root pml4Level a) := by
  have leaf := leaves o _ a (System.abs_view h)
  rw [System.viewOf, if_pos ha] at leaf
  exact leaf

/-- In every state of every run, a user-writable page belongs to the compartment whose
table maps it, and so no page is user-writable in two tables. -/
theorem write_isolation (init : s₀.Initial) (run : Run (Event.Step P) s₀ events s) :
    (∀ o root a, s.roots o = some root → a < 2 ^ 48 →
      (getPagetableEntry P.ps s.tables root pml4Level a).UserWritable →
        OwnershipMap.getMonzaOwner P.unit s.ownership a = o) ∧
    ∀ o o' root root' a, o ≠ o' → s.roots o = some root → s.roots o' = some root' →
      a < 2 ^ 48 → (getPagetableEntry P.ps s.tables root pml4Level a).UserWritable →
        ¬ (getPagetableEntry P.ps s.tables root' pml4Level a).UserWritable := by
  have stable : ∀ u a, Ownership.Stable P.policy (fun o _ w l => l.UserWritable → w = o) u a :=
    fun u a => Ownership.writes_stable P.not_userWritable_initial P.not_userWritable_shared
      P.not_userWritable_blank
  obtain ⟨-, leaves⟩ := leaves_of_run init run (fun _ _ _ h => h)
    (fun _ _ _ _ _ _ => ⟨fun a _ => stable _ a, fun a _ u => stable u a⟩)
  have owned : ∀ o root a, s.roots o = some root → a < 2 ^ 48 →
      (getPagetableEntry P.ps s.tables root pml4Level a).UserWritable →
        OwnershipMap.getMonzaOwner P.unit s.ownership a = o :=
    fun o root a h ha => leaf_of_leaves leaves h ha
  refine ⟨owned, fun o o' root root' a hne h h' ha hw hw' => hne ?_⟩
  exact (owned o root a h ha hw).symm.trans (owned o' root' a h' ha hw')

/-- Three image pages, one core with a 64 KiB interrupt stack, heap up to 1 MiB. -/
def smallPlatform : Platform where
  ps := .kib4
  minChunkBits := 14
  allocator := .bump
  layout := ⟨0x1000, 0x2000, 0x3000, by decide, by decide⟩
  interruptStacks := ⟨0x10000, 0x20000⟩
  heap := ⟨⟨0x3000, 0xfd000⟩, []⟩
  kernelPagetable := 0x1000
  fits := by
    intro e he
    simp only [predefinedMap, List.cons_append, List.nil_append, List.mem_cons,
      List.not_mem_nil, or_false] at he
    rcases he with rfl | rfl | rfl | rfl <;> constructor <;> decide
  heapBelow := by
    intro a h
    simp [HeapRanges.isHeapAddress, AddressRange.overlaps_iff, AddressRange.ofSpan, u64] at h
    omega

theorem le_of_smallPlatform_heap {a : Nat} (heap : smallPlatform.heap.isHeapAddress a = true) :
    0x3000 ≤ a := by
  simp [smallPlatform, HeapRanges.isHeapAddress, AddressRange.overlaps_iff,
    AddressRange.ofSpan] at heap
  exact heap.1

/-- The kernel table exists and nothing behind the interrupt stacks is handed out. -/
def smallBoot : System where
  tables := ⟨fun _ _ => .null, [0x1000]⟩
  ownership := .empty
  roots := fun _ => none
  handedOut := fun b => decide (b < 8)

theorem smallBoot_initial : smallBoot.Initial := ⟨fun _ => rfl, rfl⟩

/-- The leaf of an address in the table of a compartment and its owner, after a run. -/
def leafAfter (events : List Event) (o : CompartmentOwner) (a : Nat) :
    Option (PagetableEntry × CompartmentOwner) :=
  (Event.simulate smallPlatform events smallBoot).bind fun s => (s.roots o).map fun root =>
    (getPagetableEntry .kib4 s.tables root pml4Level a,
      OwnershipMap.getMonzaOwner smallPlatform.unit s.ownership a)

theorem leafAfter_eq_some {o w : CompartmentOwner} {a : Nat} {l : PagetableEntry}
    (h : leafAfter events o a = some (l, w)) :
    ∃ s root, Event.simulate smallPlatform events smallBoot = some s ∧ s.roots o = some root ∧
      getPagetableEntry .kib4 s.tables root pml4Level a = l ∧
      OwnershipMap.getMonzaOwner smallPlatform.unit s.ownership a = w := by
  obtain ⟨s, hs, hleaf⟩ := Option.bind_eq_some_iff.mp h
  obtain ⟨root, hroot, hpair⟩ := Option.map_eq_some_iff.mp hleaf
  exact ⟨s, root, hs, hroot, congrArg Prod.fst hpair, congrArg Prod.snd hpair⟩

/-- Two compartments, and memory for the first. -/
theorem write_isolation_two_compartments : ∃ s root,
    Run (Event.Step smallPlatform) smallBoot
      [.create ⟨1⟩, .create ⟨2⟩, .alloc ⟨1⟩ 0x4000 (some 0x40000)] s ∧
    s.roots ⟨1⟩ = some root ∧
    (getPagetableEntry .kib4 s.tables root pml4Level 0x40000).UserWritable ∧
    ∀ root', s.roots ⟨2⟩ = some root' →
      ¬ (getPagetableEntry .kib4 s.tables root' pml4Level 0x40000).UserWritable := by
  obtain ⟨s, root, hs, hroot, hleaf, -⟩ := leafAfter_eq_some (l := ⟨0x40007⟩) (w := ⟨1⟩)
    (show leafAfter [.create ⟨1⟩, .create ⟨2⟩, .alloc ⟨1⟩ 0x4000 (some 0x40000)] ⟨1⟩ 0x40000 =
      some (⟨0x40007⟩, ⟨1⟩) by decide +kernel)
  have run := Event.simulate_run hs
  have writable : (getPagetableEntry .kib4 s.tables root pml4Level 0x40000).UserWritable := by
    rw [hleaf]
    decide
  exact ⟨s, root, run, hroot, writable, fun root' h => (write_isolation smallBoot_initial run).2
    ⟨1⟩ ⟨2⟩ root root' 0x40000 (by decide) hroot h (by decide) writable⟩

/-- An allocation for a compartment takes no memory that another compartment can read. -/
def Event.Unshared (P : Platform) (s : System) : Event → Prop
  | alloc o size (some base) => o ≠ .null → ∀ o' root, o' ≠ o → s.roots o' = some root →
      ∀ a, base ≤ a → a < base + size →
        ¬ (getPagetableEntry P.ps s.tables root pml4Level a).UserReadable
  | _ => True

/-- A user-readable page of a compartment belongs to it or to nobody. -/
def System.ReadIsolated (P : Platform) (s : System) : Prop :=
  ∀ o root a, s.roots o = some root → a < 2 ^ 48 →
    (getPagetableEntry P.ps s.tables root pml4Level a).UserReadable →
      OwnershipMap.getMonzaOwner P.unit s.ownership a = o ∨
        OwnershipMap.getMonzaOwner P.unit s.ownership a = .null

/-- The second compartment reads memory nobody owns. It keeps that right when the first
compartment allocates the memory. -/
theorem read_isolation_broken : smallBoot.Initial ∧ ∃ s,
    Run (Event.Step smallPlatform) smallBoot
      [.create ⟨1⟩, .create ⟨2⟩, .pageFault ⟨2⟩ 0x40000 4, .alloc ⟨1⟩ 0x4000 (some 0x40000)] s ∧
    smallPlatform.heap.isHeapAddress 0x40000 = true ∧ ¬ s.ReadIsolated smallPlatform := by
  obtain ⟨s, root, hs, hroot, hleaf, howner⟩ := leafAfter_eq_some (l := ⟨0x40005⟩) (w := ⟨1⟩)
    (show leafAfter [.create ⟨1⟩, .create ⟨2⟩, .pageFault ⟨2⟩ 0x40000 4,
      .alloc ⟨1⟩ 0x4000 (some 0x40000)] ⟨2⟩ 0x40000 = some (⟨0x40005⟩, ⟨1⟩) by decide +kernel)
  refine ⟨smallBoot_initial, s, Event.simulate_run hs, by decide, fun isolated => ?_⟩
  have owner := isolated ⟨2⟩ root 0x40000 hroot (by decide) (by
    change (getPagetableEntry .kib4 s.tables root pml4Level 0x40000).UserReadable
    rw [hleaf]
    decide)
  rw [howner] at owner
  exact absurd owner (by decide)

theorem Platform.initial_not_grantable (P : Platform) (a : Nat)
    (h : (P.policy.initial a).UserReadable) : a ∉ P.policy.grantable := by
  intro grantable
  rw [PagetableEntry.UserReadable, absent_of_grantable grantable] at h
  exact Bool.false_ne_true h.1

theorem Platform.not_userReadable_blank (P : Platform) : ¬ P.policy.blank.UserReadable := by
  change ¬ PagetableEntry.null.UserReadable
  decide

theorem System.viewOf_userReadable {tables : PagetableStore} {root a : Nat}
    (h : (viewOf P tables root a).UserReadable) :
    a < 2 ^ 48 ∧ (getPagetableEntry P.ps tables root pml4Level a).UserReadable := by
  rw [viewOf] at h
  by_cases ha : a < 2 ^ 48
  · rw [if_pos ha] at h
    exact ⟨ha, h⟩
  · rw [if_neg ha] at h
    exact absurd h (by decide)

/-- Actions other than claims keep readable pages isolated from any state. -/
theorem reads_stable_of_not_claim {u : Ownership.State Nat CompartmentOwner PagetableEntry}
    {a : Ownership.Action Nat CompartmentOwner} (h : ∀ o S, a ≠ .claim o S) :
    Ownership.Stable P.policy
      (fun o _ w l => l.UserReadable → w = o ∨ w = P.policy.nobody) u a :=
  Ownership.reads_stable P.initial_not_grantable P.not_userReadable_blank
    (fun o S ha => absurd ha (h o S))

theorem Event.Unshared.stable {e : Event} (unshared : e.Unshared P s)
    {as : List (Ownership.Action Nat CompartmentOwner)} (actions : e.Actions P as) :
    (∀ a ∈ as.head?, Ownership.Stable P.policy
      (fun o _ w l => l.UserReadable → w = o ∨ w = P.policy.nobody) (s.abs P) a) ∧
    ∀ a ∈ as.tail, ∀ u, Ownership.Stable P.policy
      (fun o _ w l => l.UserReadable → w = o ∨ w = P.policy.nobody) u a := by
  have others : (∀ a ∈ as, ∀ o S, a ≠ .claim o S) → _ := fun h =>
    And.intro
      (fun a ha =>
        reads_stable_of_not_claim (P := P) (u := s.abs P) (h a (List.mem_of_mem_head? ha)))
      (fun a ha u => reads_stable_of_not_claim (P := P) (u := u) (h a (List.mem_of_mem_tail ha)))
  cases e with
  | create o =>
      subst actions
      exact others (by simp)
  | alloc o size range =>
      rcases actions with ⟨-, rfl⟩ | ⟨base, rfl, known, rfl⟩
      · exact others (by simp)
      · refine ⟨fun a ha => ?_, fun a ha u => reads_stable_of_not_claim (fun o S => ?_)⟩
        · obtain rfl := Option.some.inj ha
          refine Ownership.reads_stable P.initial_not_grantable P.not_userReadable_blank ?_
          intro o₁ S hclaim x hx o' f hne present readable
          cases hclaim
          obtain ⟨root, hr, rfl⟩ := Option.map_eq_some_iff.mp present
          exact unshared known o' root hne hr x hx.1 hx.2 (System.viewOf_userReadable readable).2
        · rw [List.tail_cons, List.mem_singleton] at ha
          simp [ha]
  | dealloc o base size =>
      rcases actions with rfl | rfl
      · exact others (by simp)
      · exact others (by simp)
  | deallocAll o =>
      refine others (fun a ha o' S => ?_)
      obtain ⟨S', rfl | rfl⟩ := actions a ha
      · simp
      · simp
  | pageFault o address err =>
      rcases actions with rfl | ⟨-, -, rfl⟩
      · exact others (by simp)
      · exact others (by simp)

/-- Reading a view of the abstract state back. -/
theorem System.roots_of_view {o : CompartmentOwner} {f : Nat → PagetableEntry}
    (h : (s.abs P).view o = some f) : ∃ root, s.roots o = some root ∧ viewOf P s.tables root = f :=
  Option.map_eq_some_iff.mp h

/-- An allocation of memory that another compartment can read leaves it readable there. -/
theorem not_readIsolated_of_shared {e : Event} (wf : s.WellFormed P) (step : e.Step P s t)
    (shared : ¬ e.Unshared P s) : ¬ t.ReadIsolated P := by
  obtain ⟨as, ⟨-, run⟩, actions⟩ := step.refines wf
  cases e with
  | alloc o size range =>
      rcases actions with ⟨hnone, rfl⟩ | ⟨base, rfl, known, rfl⟩
      · rcases hnone with rfl | rfl
        · cases range with
          | none => exact absurd trivial shared
          | some base => exact absurd (fun h => absurd rfl h) shared
        · exact absurd trivial shared
      · simp only [Event.Unshared, not_forall, not_not] at shared
        obtain ⟨-, o', root, hne, hr, a, hlo, hhi, readable⟩ := shared
        have ha : a < 2 ^ 48 := Nat.lt_of_lt_of_le hhi step.1.2.bound
        obtain ⟨owner, view⟩ : (t.abs P).owner a = o ∧ (t.abs P).view o' = (s.abs P).view o' := by
          generalize t.abs P = y at run
          cases run with
          | cons claim rest =>
              cases rest with
              | cons mapOwn rest =>
                  cases rest
                  cases claim
                  cases mapOwn
                  exact ⟨Ownership.State.setOwner_of_mem ⟨hlo, hhi⟩,
                    Ownership.State.setView_ne hne⟩
        rw [System.abs_view hr] at view
        obtain ⟨root', hr', same⟩ := System.roots_of_view view
        have leaf := congrFun same a
        rw [System.viewOf, System.viewOf, if_pos ha, if_pos ha] at leaf
        have readable' : (entryAt P.ps t.tables root' a).UserReadable := leaf ▸ readable
        intro isolated
        rcases isolated o' root' a hr' ha readable' with h | h
        · exact hne (h.symm.trans owner)
        · exact known (owner.symm.trans h)
  | _ => exact absurd trivial shared

/-- Read isolation holds in every state of the runs whose allocations take no memory that
another compartment can read; an allocation that does breaks it at once. -/
theorem read_isolation (init : s₀.Initial)
    (run : Run (fun s e t => e.Step P s t ∧ e.Unshared P s) s₀ events s) :
    s.ReadIsolated P ∧
      ∀ (e : Event) (t : System), e.Step P s t → ¬ e.Unshared P s → ¬ t.ReadIsolated P := by
  obtain ⟨wf, leaves⟩ := leaves_of_run init run (fun _ _ _ h => h.1)
    (fun _ _ _ h _ actions => h.2.stable actions)
  exact ⟨fun o root a h ha => leaf_of_leaves leaves h ha,
    fun e t step shared => not_readIsolated_of_shared wf step shared⟩

theorem System.roots_of_create {o o' : CompartmentOwner}
    (run : s.createCompartment P o = .ok t) (h : o' ≠ o) : t.roots o' = s.roots o' := by
  obtain ⟨⟨root, tables⟩, -, ht⟩ := bind_eq_ok.mp run
  cases ht
  exact Function.update_of_ne h _ _

theorem read_isolation_single_compartment : ∃ s,
    Run (fun s (e : Event) t => e.Step smallPlatform s t ∧ e.Unshared smallPlatform s) smallBoot
      [.create ⟨1⟩, .alloc ⟨1⟩ 0x4000 (some 0x40000)] s ∧ s.ReadIsolated smallPlatform := by
  obtain ⟨s, root, hs, -, -⟩ := leafAfter_eq_some (l := ⟨0x40007⟩) (w := ⟨1⟩)
    (show leafAfter [.create ⟨1⟩, .alloc ⟨1⟩ 0x4000 (some 0x40000)] ⟨1⟩ 0x40000 =
      some (⟨0x40007⟩, ⟨1⟩) by decide +kernel)
  obtain ⟨u, create, rest⟩ := Event.simulate_cons hs
  obtain ⟨v, alloc, done⟩ := Event.simulate_cons rest
  cases done
  -- no compartment but the first has a table when it allocates
  have unshared : (Event.alloc ⟨1⟩ 0x4000 (some 0x40000)).Unshared smallPlatform u := by
    intro _ o' root' hne h
    rw [System.roots_of_create create.2 hne] at h
    cases h
  exact ⟨s, .cons ⟨create, trivial⟩ (.cons ⟨alloc, unshared⟩ (.nil s)),
    (read_isolation smallBoot_initial
      (.cons ⟨create, trivial⟩ (.cons ⟨alloc, unshared⟩ (.nil s)))).1⟩

end Monza
