import Monza.Compartment.Isolation

/-!
# Mappings made at the creation of a compartment

A compartment is created with the image, the memory below it and the interrupt stacks in its
table. What happens to the compartment later leaves these leaves alone, with two exceptions. The
interrupt stacks are heap memory without an owner, so a read fault on them replaces the kernel
mapping by one that is readable by the compartment and no longer writable. And the pages below the
image are installed without access, but a range of the heap may lie there: a read fault on such a
page or an allocation of it gives the compartment access.
-/

namespace Monza

open Outcome Radix Transition

namespace Platform

variable {P : Platform} {a : Nat}

/-- The addresses the creation of a compartment maps. -/
def installed (P : Platform) : Set Nat :=
  {a | a < 2 ^ 48 ∧ ∃ c ∈ P.creationCalls, c.covers a = true}

theorem initial_of_installed (h : a ∈ P.installed) :
    P.policy.initial a = historyMap P.ps (fun _ => .null) P.creationCalls a :=
  if_pos h.1

/-- Memory that can get an owner is installed only below the image. -/
theorem not_installed_of_grantable (h : a ∈ P.policy.grantable) (above : P.layout.elfStart ≤ a) :
    a ∉ P.installed := by
  rintro ⟨-, c, hc, covers⟩
  obtain ⟨e, he, rfl⟩ := List.mem_map.mp hc
  have inside := (P.fits e he).covers_iff.mp covers
  rw [below_image_of_grantable h he covers] at inside
  simp only [AddressRange.ofBounds_stop, Nat.zero_max] at inside
  omega

/-- The interrupt stacks are the last entry, so no other entry decides about them. -/
theorem initial_of_stack (h : P.interruptStacks.overlaps a = true) :
    a ∈ P.installed ∧
      P.policy.initial a = leafFor P.ps false .normal .forceKernelWrite a := by
  have fits := P.fits ⟨P.interruptStacks, .forceKernelWrite⟩ (by simp)
  have covers : (MapEntry.call ⟨P.interruptStacks, .forceKernelWrite⟩).covers a = true :=
    fits.covers_iff.mpr (AddressRange.overlaps_iff.mp h)
  have ha : a < 2 ^ 48 := Nat.lt_of_lt_of_le (AddressRange.overlaps_iff.mp h).2 fits.bound
  refine ⟨⟨ha, _, ?_, covers⟩, ?_⟩
  · simp [creationCalls, interruptStackMap]
  · have find : P.creationCalls.reverse.find? (·.covers a) =
        some (MapEntry.call ⟨P.interruptStacks, .forceKernelWrite⟩) := by
      simp [creationCalls, interruptStackMap, covers]
    simp only [policy, historyMap, if_pos ha, find, MapEntry.call_value]

/-- A page that ends an entry of whole pages lies on one side of its end. -/
theorem lt_of_same_page {x address stop : Nat} (aligned : stop % P.ps.bytes = 0)
    (page : x / P.ps.bytes = address / P.ps.bytes) : x < stop ↔ address < stop := by
  obtain ⟨k, rfl⟩ := Nat.dvd_of_mod_eq_zero aligned
  rw [Nat.mul_comm, ← Nat.div_lt_iff_lt_mul P.ps.bytes_pos, ← Nat.div_lt_iff_lt_mul P.ps.bytes_pos,
    page]

/-- Sharing a page of the image does not change its leaf: the image is readable by
compartments from the start. -/
theorem shared_eq_initial {x address : Nat} (above : P.layout.elfStart ≤ address)
    (spared : P.interruptStacks.overlaps address = false) (page : x ∈ System.faultPage P address)
    (installed : x ∈ P.installed) : P.policy.shared x = P.policy.initial x := by
  obtain ⟨hx, c, hc, covers⟩ := installed
  obtain ⟨e, he, covers, value⟩ := initial_of_covered hc covers hx
  have fits := P.fits e he
  have page := System.mem_faultPage.mp page
  have inside := (lt_of_same_page fits.alignedEnd page).mp (fits.covers_iff.mp covers).2
  rw [value, MapEntry.call_value]
  simp only [predefinedMap, interruptStackMap, List.cons_append, List.nil_append, List.mem_cons,
    List.not_mem_nil, or_false] at he
  rcases he with rfl | rfl | rfl | rfl
  · simp only [AddressRange.ofBounds_stop, Nat.zero_max] at inside
    omega
  · rfl
  · rfl
  · have above := mt (lt_of_same_page fits.aligned page).mpr
      (Nat.not_lt.mpr (fits.covers_iff.mp covers).1)
    rw [AddressRange.overlaps_iff.mpr ⟨Nat.not_lt.mp above, inside⟩] at spared
    cases spared

theorem mem_installed_of_below (below : a < P.layout.elfStart) : a ∈ P.installed := by
  have mem : (⟨.ofBounds 0 P.layout.elfStart, .noAccess⟩ : MapEntry) ∈
      predefinedMap P.ps P.layout ++ P.interruptStackMap := by simp [predefinedMap]
  have fits := P.fits _ mem
  have inside : (0 : Nat) ≤ a ∧ a < max 0 P.layout.elfStart := ⟨Nat.zero_le a, by omega⟩
  rw [← AddressRange.ofBounds_stop] at inside
  exact ⟨Nat.lt_of_lt_of_le inside.2 fits.bound, _, List.mem_map.mpr ⟨_, mem, rfl⟩,
    fits.covers_iff.mpr inside⟩

/-- A new table does not let the compartment read below the image or from the stacks. -/
theorem not_userReadable_initial
    (hit : a < P.layout.elfStart ∨ P.interruptStacks.overlaps a = true) :
    a ∈ P.installed ∧ ¬ (P.policy.initial a).UserReadable := by
  by_cases stack : P.interruptStacks.overlaps a = true
  · obtain ⟨installed, value⟩ := initial_of_stack stack
    refine ⟨installed, ?_⟩
    rw [value, PagetableEntry.UserReadable, rights_leafFor]
    decide
  · have below := hit.resolve_right stack
    have installed := mem_installed_of_below below
    refine ⟨installed, ?_⟩
    obtain ⟨ha, c, hc, covers⟩ := installed
    obtain ⟨e, he, covers, value⟩ := initial_of_covered hc covers ha
    have inside := (P.fits e he).covers_iff.mp covers
    have writable := P.layout.writableAfterStart
    rw [value, MapEntry.call_value, PagetableEntry.UserReadable, rights_leafFor]
    simp only [predefinedMap, interruptStackMap, List.cons_append, List.nil_append, List.mem_cons,
      List.not_mem_nil, or_false] at he
    rcases he with rfl | rfl | rfl | rfl
    · exact fun readable => absurd readable.1 (by decide :
        ¬ (Rights.ofFlags (pagetableLeafPermissions false .noAccess)).present = true)
    · rw [AddressRange.ofBounds_start] at inside
      omega
    · have start : P.layout.elfWritableStart ≤ a := inside.1
      omega
    · exact absurd (AddressRange.overlaps_iff.mpr inside) stack

theorem userReadable_shared (P : Platform) (a : Nat) : (P.policy.shared a).UserReadable := by
  change (leafFor P.ps false .normal .compartmentRead a).UserReadable
  rw [PagetableEntry.UserReadable, rights_leafFor]
  decide

theorem userWritable_own (P : Platform) (a : Nat) : (P.policy.own a).UserWritable := by
  change (leafFor P.ps false .normal .compartmentWrite a).UserWritable
  rw [PagetableEntry.UserWritable, rights_leafFor]
  decide

end Platform

/-- No read fault of the compartment lands below the image or on an interrupt stack, and the
compartment is given no memory below the image. -/
def Event.Spares (P : Platform) (o : CompartmentOwner) : Event → Prop
  | alloc o' size (some base) => o' = o → size ≠ 0 → P.layout.elfStart ≤ base
  | pageFault o' address err => o' = o → err &&& 0x2#64 = 0#64 →
      P.layout.elfStart ≤ address ∧ P.interruptStacks.overlaps address = false
  | _ => True

/-- The table of the compartment still has every leaf it was created with. -/
def System.Permanent (P : Platform) (o : CompartmentOwner) (s : System) : Prop :=
  ∀ root a, s.roots o = some root → a ∈ P.installed →
    getPagetableEntry P.ps s.tables root pml4Level a =
      historyMap P.ps (fun _ => .null) P.creationCalls a

variable {P : Platform} {s₀ s t : System} {events : List Event} {o : CompartmentOwner}

/-- What the compartment was created with is not its own memory and has its first leaf. -/
def Lasting (P : Platform) (o o' : CompartmentOwner) (x : Nat) (w : CompartmentOwner)
    (l : PagetableEntry) : Prop :=
  o' = o → x ∈ P.installed → w ≠ o ∧ l = P.policy.initial x

theorem Event.Spares.stable {e : Event} (spares : e.Spares P o)
    (legal : e.Legal P s) {as : List (Ownership.Action Nat CompartmentOwner)}
    (actions : e.Actions P as) :
    ∀ a ∈ as, ∀ u, Ownership.Stable P.policy (Lasting P o) u a := by
  intro a ha u
  refine Ownership.initial_stable (fun S hS x hx => ?_) (fun S hS x hx => ?_)
  all_goals subst hS
  · cases e with
    | create o' =>
        subst actions
        simp at ha
    | alloc o' size range =>
        rcases actions with ⟨-, rfl⟩ | ⟨base, rfl, -, rfl⟩
        · simp at ha
        · obtain ⟨rfl, rfl⟩ : o = o' ∧ S = Set.Ico base (base + size) := by simpa using ha
          have low : base ≤ x := hx.1
          have high : x < base + size := hx.2
          refine P.not_installed_of_grantable (Platform.grantable_of_fresh legal.2 hx) ?_
          exact Nat.le_trans (spares rfl (by omega)) low
    | dealloc o' base size =>
        rcases actions with rfl | rfl <;> simp at ha
    | deallocAll o' =>
        obtain ⟨S', h | h⟩ := actions _ ha <;> cases h
    | pageFault o' address err =>
        rcases actions with rfl | ⟨read, heap, rfl⟩ <;> simp at ha
  · cases e with
    | create o' =>
        subst actions
        simp at ha
    | alloc o' size range =>
        rcases actions with ⟨-, rfl⟩ | ⟨base, -, -, rfl⟩ <;> simp at ha
    | dealloc o' base size =>
        rcases actions with rfl | rfl <;> simp at ha
    | deallocAll o' =>
        obtain ⟨S', h | h⟩ := actions _ ha <;> cases h
    | pageFault o' address err =>
        rcases actions with rfl | ⟨read, heap, rfl⟩
        · simp at ha
        · obtain ⟨rfl, rfl⟩ : o = o' ∧ S = System.faultPage P address := by simpa using ha
          obtain ⟨above, spared⟩ := spares rfl read
          exact P.shared_eq_initial above spared hx

theorem rights_of_stack {a : Nat} (h : P.interruptStacks.overlaps a = true) :
    (P.policy.initial a).rights = ⟨true, true, false⟩ := by
  rw [(P.initial_of_stack h).2, rights_leafFor]
  decide

/-- A compartment that reads from an interrupt stack gets the page, and the kernel can no
longer write to it under the table of the compartment. -/
theorem interrupt_stack_read_replaces_mapping : smallBoot.Initial ∧ ∃ s root,
    Run (Event.Step smallPlatform) smallBoot [.create ⟨1⟩, .pageFault ⟨1⟩ 0x10000 4] s ∧
    s.roots ⟨1⟩ = some root ∧
    (getPagetableEntry .kib4 s.tables root pml4Level 0x10000).rights = ⟨true, false, true⟩ ∧
    ¬ s.Permanent smallPlatform ⟨1⟩ := by
  obtain ⟨s, root, hs, hroot, hleaf, -⟩ := leafAfter_eq_some (l := ⟨0x10005⟩) (w := .null)
    (show leafAfter [.create ⟨1⟩, .pageFault ⟨1⟩ 0x10000 4] ⟨1⟩ 0x10000 =
      some (⟨0x10005⟩, .null) by decide +kernel)
  refine ⟨smallBoot_initial, s, root, Event.simulate_run hs, hroot, ?_, fun permanent => ?_⟩
  · rw [hleaf]
    decide
  · have stack : smallPlatform.interruptStacks.overlaps 0x10000 = true := by decide
    have same := permanent root 0x10000 hroot (smallPlatform.initial_of_stack stack).1
    have value : historyMap .kib4 (fun _ => .null) smallPlatform.creationCalls 0x10000 =
        ⟨0x10003⟩ := by decide +kernel
    exact absurd (hleaf.symm.trans (same.trans value)) (by decide)

/-- A compartment reads its own leaf at an installed address from the table. -/
theorem System.viewOf_of_installed {tables : PagetableStore} {root a : Nat}
    (h : a ∈ P.installed) :
    viewOf P tables root a = getPagetableEntry P.ps tables root pml4Level a := by
  rw [viewOf, if_pos h.1]
  rfl

theorem System.Permanent.of_leaves (leaves : Ownership.Leaves (Lasting P o) (s.abs P)) :
    s.Permanent P o := by
  intro root a h installed
  rw [← viewOf_of_installed installed, ← P.initial_of_installed installed]
  exact (leaves o _ a (abs_view h) rfl installed).2

/-- A leaf of the abstract view that differs from the first one shows in the table. -/
theorem System.not_permanent_of_leaf {f : Nat → PagetableEntry} {a : Nat}
    (view : (s.abs P).view o = some f) (installed : a ∈ P.installed)
    (other : f a ≠ P.policy.initial a) : ¬ s.Permanent P o := by
  obtain ⟨root, h, rfl⟩ := System.roots_of_view view
  intro permanent
  have same := permanent root a h installed
  rw [← viewOf_of_installed installed, ← P.initial_of_installed installed] at same
  exact other same

/-- A completed event outside of the condition replaces a leaf. -/
theorem not_permanent_of_not_spares {e : Event} (known : o ≠ .null) (wf : s.WellFormed P)
    (leaves : Ownership.Leaves (Lasting P o) (s.abs P)) (step : e.Step P s t)
    (hit : ¬ e.Spares P o) : ¬ t.Permanent P o := by
  obtain ⟨as, ⟨-, run⟩, actions⟩ := step.refines wf
  cases e with
  | alloc o' size range =>
      cases range with
      | none => exact absurd trivial hit
      | some base =>
          simp only [Event.Spares, not_forall, Nat.not_le] at hit
          obtain ⟨rfl, nonempty, below⟩ := hit
          have first : base ∈ Set.Ico base (base + size) := ⟨Nat.le_refl base, by omega⟩
          obtain ⟨absent, -⟩ | ⟨_, same, -, rfl⟩ := actions
          · exact absurd (absent.resolve_right (Option.some_ne_none base)) known
          · cases same
            cases run with
            | cons claim rest =>
                obtain ⟨f, view, leaf⟩ := (Run.single.mp rest).own_leaf first
                refine System.not_permanent_of_leaf view (P.mem_installed_of_below below) ?_
                rw [leaf]
                intro same
                exact P.not_userWritable_initial base (same ▸ P.userWritable_own base)
  | pageFault o' address err =>
      simp only [Event.Spares, not_forall, not_and_or, Nat.not_le, Bool.not_eq_false] at hit
      obtain ⟨rfl, read, hit⟩ := hit
      obtain ⟨installed, unreadable⟩ := P.not_userReadable_initial hit
      have page : address ∈ System.faultPage P address := System.mem_faultPage.mpr rfl
      rcases actions with rfl | ⟨-, -, rfl⟩
      · -- what is installed is never the compartment's own
        obtain ⟨f, view, owned⟩ := (Run.single.mp run).owned_of_mapOwn page
        exact absurd owned (leaves o' f address view rfl installed).1
      · obtain ⟨f, view, leaf⟩ := (Run.single.mp run).shared_leaf page
        refine System.not_permanent_of_leaf view installed ?_
        rw [leaf]
        exact fun same => unreadable (same ▸ P.userReadable_shared address)
  | _ => exact absurd trivial hit

/-- As long as no read fault of a compartment lands below the image or on an interrupt stack and
the compartment gets no memory below the image, its table keeps all leaves of its creation, and
the interrupt stacks stay writable by the kernel alone. The first such fault that is handled and
the first such allocation change one of them. -/
theorem creation_mappings_permanent (known : o ≠ .null) (init : s₀.Initial)
    (run : Run (fun s e t => e.Step P s t ∧ e.Spares P o) s₀ events s) :
    s.Permanent P o ∧
    (∀ root a, s.roots o = some root → P.interruptStacks.overlaps a = true →
      (getPagetableEntry P.ps s.tables root pml4Level a).rights = ⟨true, true, false⟩) ∧
    ∀ (e : Event) (t : System), e.Step P s t → ¬ e.Spares P o → ¬ t.Permanent P o := by
  obtain ⟨wf, leaves⟩ := leaves_of_run init run (fun _ _ _ h => h.1)
    (fun _ _ _ h _ actions =>
      ⟨fun a ha => h.2.stable h.1.1 actions a (List.mem_of_mem_head? ha) _,
        fun a ha => h.2.stable h.1.1 actions a (List.mem_of_mem_tail ha)⟩)
  have permanent := System.Permanent.of_leaves leaves
  refine ⟨permanent, fun root a h stack => ?_, fun e t step hit =>
    not_permanent_of_not_spares known wf leaves step hit⟩
  have installed := (P.initial_of_stack stack).1
  rw [permanent root a h installed, ← P.initial_of_installed installed, rights_of_stack stack]

theorem creation_mappings_permanent_one_fault : ∃ s root,
    Run (fun s (e : Event) t => e.Step smallPlatform s t ∧ e.Spares smallPlatform ⟨1⟩)
      smallBoot [.create ⟨1⟩, .pageFault ⟨1⟩ 0x40000 4] s ∧ s.roots ⟨1⟩ = some root ∧
    s.Permanent smallPlatform ⟨1⟩ ∧
    (getPagetableEntry .kib4 s.tables root pml4Level 0x10000).rights = ⟨true, true, false⟩ := by
  obtain ⟨s, root, hs, hroot, -⟩ := leafAfter_eq_some (l := ⟨0x40005⟩) (w := .null)
    (show leafAfter [.create ⟨1⟩, .pageFault ⟨1⟩ 0x40000 4] ⟨1⟩ 0x40000 =
      some (⟨0x40005⟩, .null) by decide +kernel)
  obtain ⟨u, create, rest⟩ := Event.simulate_cons hs
  obtain ⟨v, fault, done⟩ := Event.simulate_cons rest
  cases done
  have spares : (Event.pageFault ⟨1⟩ 0x40000 4).Spares smallPlatform ⟨1⟩ :=
    fun _ _ => by decide
  obtain ⟨permanent, rights, -⟩ := creation_mappings_permanent
    (show (⟨1⟩ : CompartmentOwner) ≠ .null by decide) smallBoot_initial
    (.cons ⟨create, trivial⟩ (.cons ⟨fault, spares⟩ (.nil s)))
  exact ⟨s, root, .cons ⟨create, trivial⟩ (.cons ⟨fault, spares⟩ (.nil s)), hroot, permanent,
    rights root 0x10000 hroot (by decide)⟩

end Monza
