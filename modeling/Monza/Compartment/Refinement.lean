import Monza.Compartment.System
import Monza.Lib.Ownership
import Mathlib.Order.Interval.Set.Defs

/-!
# The compartment system refines ownership-checked views

Every completed event of the system is a short run of the abstract system of
`Monza.Lib.Ownership`: principals are compartments, their views are what their
page tables map below `2 ^ 48`. An allocation claims its block and then opens it; a
deallocation closes it and then releases it; a handled page fault opens one page
of the faulting compartment's own memory or shares one page nobody owns.

`Coherent` is what makes this exact: the tables of different compartments share no
node, and the links of the ownership lists stay inside mappable memory.
-/

namespace Monza

open Outcome Radix Transition

theorem PageSize.bytes_eq_two_pow (ps : PageSize) : ∃ j, j ≤ 48 ∧ ps.bytes = 2 ^ j := by
  cases ps with
  | kib4 => exact ⟨12, by decide, rfl⟩
  | mib2 => exact ⟨21, by decide, rfl⟩

namespace Platform

variable (P : Platform)

theorem unit_pos : 0 < P.unit :=
  Nat.lt_of_lt_of_le P.ps.bytes_pos (Nat.le_max_left _ _)

theorem bytes_dvd_unit : P.ps.bytes ∣ P.unit := by
  obtain ⟨j, -, hj⟩ := P.ps.bytes_eq_two_pow
  rw [unit, minOwnershipSize, hj]
  rcases Nat.le_total (2 ^ P.minChunkBits) (2 ^ j) with h | h
  · exact (Nat.max_eq_left h).symm ▸ Nat.dvd_refl (2 ^ j)
  · rw [Nat.max_eq_right h]
    exact Nat.pow_dvd_pow 2 ((Nat.pow_le_pow_iff_right (by decide)).mp h)

/-- A page lies in one ownership unit. -/
theorem div_unit_eq {a b : Nat} (h : a / P.ps.bytes = b / P.ps.bytes) :
    a / P.unit = b / P.unit := by
  obtain ⟨k, hk⟩ := P.bytes_dvd_unit
  rw [hk, ← Nat.div_div_eq_div_mul, ← Nat.div_div_eq_div_mul, h]

/-- The leaves and the memory of the abstract system. -/
def policy : Ownership.Policy Nat CompartmentOwner PagetableEntry where
  nobody := .null
  initial a := if a < 2 ^ 48 then historyMap P.ps (fun _ => .null) P.creationCalls a else .null
  blank := .null
  own := leafFor P.ps false .normal .compartmentWrite
  shared := leafFor P.ps false .normal .compartmentRead
  grantable := {a | a / P.unit * P.unit + P.unit ≤ 2 ^ 48 ∧
    (a < P.layout.elfStart ∨ P.imageEnd ≤ a) ∧ P.interruptStacks.overlaps a = false}

variable {P}

/-- Memory the parent hands out can get an owner: it is neither part of the image nor
of the interrupt stacks. -/
theorem grantable_of_fresh {s : System} {base size a : Nat} (fresh : Event.Fresh P s base size)
    (ha : a ∈ Set.Ico base (base + size)) : a ∈ P.policy.grantable := by
  have image := fresh.image
  have apart := fresh.apart
  have low := ha.1
  have high := ha.2
  refine ⟨?_, by omega, ?_⟩
  · have unit := Nat.div_mul_le_self a P.unit
    have inside := add_le_of_mod (alignDown_mod a P.unit)
      (add_mod_zero fresh.aligned fresh.alignedSize) (Nat.lt_of_le_of_lt unit high)
    exact Nat.le_trans inside fresh.bound
  · rw [← Bool.not_eq_true, AddressRange.overlaps_iff]
    omega

end Platform

namespace System

variable {P : Platform} {s t : System} {nodesOf : CompartmentOwner → Set Nat}
variable {o : CompartmentOwner} {lo hi root : Nat} {v : Nat → PagetableEntry}

/-- What the page table of a root maps below `2 ^ 48`. -/
def viewOf (P : Platform) (tables : PagetableStore) (root a : Nat) : PagetableEntry :=
  if a < 2 ^ 48 then entryAt P.ps tables root a else .null

/-- The abstract state of a system. -/
def abs (P : Platform) (s : System) : Ownership.State Nat CompartmentOwner PagetableEntry where
  owner := OwnershipMap.getMonzaOwner P.unit s.ownership
  view o := (s.roots o).map (viewOf P s.tables)

structure Coherent (P : Platform) (s : System) (nodesOf : CompartmentOwner → Set Nat) : Prop where
  table : ∀ o r, s.roots o = some r → TableAt P.ps {false} s.tables r (nodesOf o)
  apart : ∀ o o', o ≠ o' → s.roots o ≠ none → s.roots o' ≠ none →
    ∀ a ∈ nodesOf o, a ∉ nodesOf o'
  links : s.ownership.Links (fun b => b * P.unit + P.unit ≤ 2 ^ 48)

theorem abs_view (h : s.roots o = some root) :
    (s.abs P).view o = some (viewOf P s.tables root) := by
  rw [abs]
  simp only [h, Option.map_some]

/-- Two states with the same owners and the same views are the same abstractly. -/
theorem abs_ext (owner : ∀ a, OwnershipMap.getMonzaOwner P.unit t.ownership a =
    OwnershipMap.getMonzaOwner P.unit s.ownership a)
    (tables : t.tables = s.tables) (roots : t.roots = s.roots) : t.abs P = s.abs P := by
  rw [abs, abs, tables, roots, funext owner]

/-- The tables of other compartments look the same after a table has grown. -/
theorem Coherent.viewOf_other (coh : Coherent P s nodesOf) {tables : PagetableStore}
    {N M : Set Nat} (grown : Grown s.tables tables N M) (h : s.roots o = some root)
    (separate : ∀ a ∈ nodesOf o, a ∉ N) : viewOf P tables root = viewOf P s.tables root := by
  funext a
  rw [viewOf, viewOf, (coh.table o root h).entryAt_other grown separate]

theorem viewOf_update {tables : PagetableStore} {N M : Set Nat}
    (update : MapUpdate P.ps {false} root lo hi v N s.tables tables M) (bound : hi ≤ 2 ^ 48) :
    viewOf P tables root = Ownership.override (Set.Ico lo hi) v (viewOf P s.tables root) := by
  funext a
  by_cases hmem : a ∈ Set.Ico lo hi
  · have ha : a < 2 ^ 48 := Nat.lt_of_lt_of_le hmem.2 bound
    rw [Ownership.override_of_mem hmem, viewOf, if_pos ha, update.entry a ha]
    exact if_pos hmem
  · rw [Ownership.override_of_notMem hmem, viewOf, viewOf]
    by_cases ha : a < 2 ^ 48
    · rw [if_pos ha, if_pos ha, update.entry a ha]
      exact if_neg hmem
    · rw [if_neg ha, if_neg ha]

/-- Install a table for a compartment, new or changed. -/
def withTable (s : System) (o : CompartmentOwner) (root : Nat) (tables : PagetableStore) : System :=
  { s with tables := tables, roots := Function.update s.roots o (some root) }

theorem withTable_eq (h : s.roots o = some root) (tables : PagetableStore) :
    s.withTable o root tables = { s with tables := tables } := by
  rw [withTable, ← h, Function.update_eq_self]

section WithTable

variable {tables : PagetableStore} {N M : Set Nat}

theorem roots_withTable {o' : CompartmentOwner} (ho : o' ≠ o) :
    (s.withTable o root tables).roots o' = s.roots o' := Function.update_of_ne ho _ _

/-- A table that grew from nodes no other table has stays apart from all others. -/
theorem Coherent.withTable (coh : Coherent P s nodesOf)
    (table : TableAt P.ps {false} tables root M) (grown : Grown s.tables tables N M)
    (separate : ∀ o', o' ≠ o → s.roots o' ≠ none → ∀ a ∈ nodesOf o', a ∉ N) :
    Coherent P (s.withTable o root tables) (Function.update nodesOf o M) := by
  -- New nodes of the table were not in use, so no other table has them.
  have fresh : ∀ o', o' ≠ o → s.roots o' ≠ none → ∀ a ∈ nodesOf o', a ∉ M := by
    intro o' ho live' a ha hM
    obtain ⟨r, hr⟩ := Option.ne_none_iff_exists'.mp live'
    exact grown.fresh a hM (separate o' ho live' a ha) ((coh.table o' r hr).inUse a ha)
  refine ⟨fun o' r hr => ?_, fun o₁ o₂ hne live₁ live₂ a ha => ?_, coh.links⟩
  · by_cases ho : o' = o
    · subst ho
      obtain rfl := Option.some.inj ((Function.update_self o' _ s.roots).symm.trans hr)
      rw [Function.update_self]
      exact table
    · rw [roots_withTable ho] at hr
      rw [Function.update_of_ne ho]
      exact (coh.table o' r hr).other grown
        (separate o' ho (Option.ne_none_iff_exists'.mpr ⟨r, hr⟩))
  · by_cases h₁ : o₁ = o
    · subst h₁
      rw [Function.update_self] at ha
      rw [roots_withTable hne.symm] at live₂
      rw [Function.update_of_ne hne.symm]
      exact fun hb => fresh o₂ hne.symm live₂ a hb ha
    · rw [roots_withTable h₁] at live₁
      rw [Function.update_of_ne h₁] at ha
      by_cases h₂ : o₂ = o
      · subst h₂
        rw [Function.update_self]
        exact fresh o₁ h₁ live₁ a ha
      · rw [roots_withTable h₂] at live₂
        rw [Function.update_of_ne h₂]
        exact coh.apart o₁ o₂ hne live₁ live₂ a ha

theorem Coherent.abs_withTable (root : Nat) (coh : Coherent P s nodesOf)
    (grown : Grown s.tables tables N M)
    (separate : ∀ o', o' ≠ o → s.roots o' ≠ none → ∀ a ∈ nodesOf o', a ∉ N) :
    abs P (s.withTable o root tables) =
      { s.abs P with view := Function.update (s.abs P).view o (some (viewOf P tables root)) } := by
  refine congrArg (Ownership.State.mk _) (funext fun o' => ?_)
  by_cases ho : o' = o
  · subst ho
    rw [Function.update_self]
    simp only [System.withTable, Function.update_self, Option.map_some]
  · rw [roots_withTable ho, Function.update_of_ne ho]
    change (s.roots o').map (viewOf P tables) = (s.roots o').map (viewOf P s.tables)
    cases hr : s.roots o' with
    | none => rfl
    | some r =>
        have live := Option.ne_none_iff_exists'.mpr ⟨r, hr⟩
        rw [Option.map_some, Option.map_some, coh.viewOf_other grown hr (separate o' ho live)]

end WithTable

/-- Updating the table of one compartment is a change of its view only. -/
theorem Coherent.update (coh : Coherent P s nodesOf) {tables : PagetableStore} {M : Set Nat}
    (h : s.roots o = some root)
    (update : MapUpdate P.ps {false} root lo hi v (nodesOf o) s.tables tables M)
    (bound : hi ≤ 2 ^ 48) :
    Coherent P { s with tables := tables } (Function.update nodesOf o M) ∧
      abs P { s with tables := tables } =
        (s.abs P).setView o (Set.Ico lo hi) v (viewOf P s.tables root) := by
  have live : s.roots o ≠ none := fun hn => Option.some_ne_none root (h.symm.trans hn)
  have separate : ∀ o', o' ≠ o → s.roots o' ≠ none → ∀ a ∈ nodesOf o', a ∉ nodesOf o :=
    fun o' ho live' => coh.apart o' o ho live' live
  have coh' := coh.withTable update.table update.grown separate
  have abs' := coh.abs_withTable root update.grown separate
  rw [withTable_eq h] at coh' abs'
  rw [viewOf_update update bound] at abs'
  exact ⟨coh', abs'⟩

/-- Changing the owner of a range of memory changes nothing else. -/
theorem Coherent.setOwner (coh : Coherent P s nodesOf) {m : OwnershipMap}
    {old new : CompartmentOwner}
    (update : OwnershipMap.OwnerUpdate P.unit lo hi old new s.ownership m)
    (links : m.Links (fun b => b * P.unit + P.unit ≤ 2 ^ 48)) :
    Coherent P { s with ownership := m } nodesOf ∧
      abs P { s with ownership := m } = (s.abs P).setOwner (Set.Ico lo hi) new := by
  refine ⟨⟨coh.table, coh.apart, links⟩, ?_⟩
  have owner : ∀ a, OwnershipMap.getMonzaOwner P.unit m a =
      ((s.abs P).setOwner (Set.Ico lo hi) new).owner a := by
    intro a
    rw [update.after a]
    by_cases hmem : a ∈ Set.Ico lo hi
    · rw [Ownership.State.setOwner_of_mem hmem]
      exact if_pos hmem
    · rw [Ownership.State.setOwner_of_notMem hmem]
      exact if_neg hmem
  exact congrArg (Ownership.State.mk · (s.abs P).view) (funext owner)

/-- A state refines a run of abstract actions from the abstraction of `s`. -/
def Refines (P : Platform) (s : System) (as : List (Ownership.Action Nat CompartmentOwner))
    (t : System) : Prop :=
  (∃ nodesOf, Coherent P t nodesOf) ∧ Run (Ownership.Step P.policy) (s.abs P) as (t.abs P)

theorem Refines.trans {u : System} {as bs : List (Ownership.Action Nat CompartmentOwner)}
    (first : Refines P s as t) (second : Refines P t bs u) : Refines P s (as ++ bs) u :=
  ⟨second.1, first.2.append second.2⟩

theorem rootOf_eq (h : s.roots o = some root) : s.rootOf o = root := by
  rw [rootOf, h]
  rfl

theorem range_eq (h : s.roots o = some root) : s.range o = ⟨o, root⟩ := by
  rw [range, rootOf_eq h]

theorem createCompartment_refines (coh : Coherent P s nodesOf) (known : o ≠ .null)
    (new : s.roots o = none) :
    Sat (s.createCompartment P o) (Refines P s [.create o]) (fun _ => True) := by
  refine ((createCompartmentPagetable_sat P.fits).mono (fun _ h => h) (fun _ _ => trivial)).bind ?_
  rintro ⟨root, tables⟩ ⟨⟨M, table, grown, entries⟩, -⟩
  have view : viewOf P tables root = P.policy.initial := by
    funext a
    rw [viewOf, Platform.policy]
    by_cases ha : a < 2 ^ 48
    · rw [if_pos ha, entries a ha]
      exact (if_pos ha).symm
    · rw [if_neg ha]
      exact (if_neg ha).symm
  have separate : ∀ o', o' ≠ o → s.roots o' ≠ none → ∀ a ∈ nodesOf o', a ∉ (∅ : Set Nat) :=
    fun _ _ _ a _ => Set.notMem_empty a
  have coh' := coh.withTable table grown separate
  have abs' := coh.abs_withTable root grown separate
  refine ⟨⟨_, coh'.table, coh'.apart, coh.links.newHead⟩, .cons ?_ (.nil _)⟩
  rw [view] at abs'
  have step : Ownership.Step P.policy (s.abs P) (.create o) _ :=
    .create known (by rw [abs]; simp only [new, Option.map_none])
  rw [← abs'] at step
  exact step

section Memory

variable {base size : Nat} {perm : PagetablePermission}

/-- Mapping a range for a compartment changes its view. Misaligned ranges abort. -/
theorem addToCompartmentPagetable_refines (coh : Coherent P s nodesOf) (h : s.roots o = some root)
    (bound : base + size ≤ 2 ^ 48) :
    Sat (addToCompartmentPagetable P.ps P.allocator root base size perm s.tables)
      (fun tables => (∃ nodesOf', Coherent P { s with tables := tables } nodesOf') ∧
        abs P { s with tables := tables } = (s.abs P).setView o (Set.Ico base (base + size))
          (leafFor P.ps false .normal perm) (viewOf P s.tables root))
      (fun _ => True) := by
  rw [addToCompartmentPagetable]
  split
  case isTrue => trivial
  case isFalse haligned =>
      refine ((coh.table o root h).add rfl (by omega) (by omega) bound).mono ?_ (fun _ _ => trivial)
      rintro tables ⟨M, update⟩
      obtain ⟨coh', abs'⟩ := coh.update h update bound
      exact ⟨⟨_, coh'⟩, abs'⟩

theorem removeFromCompartmentPagetable_refines (coh : Coherent P s nodesOf)
    (h : s.roots o = some root) (bound : base + size ≤ 2 ^ 48) :
    Sat (removeFromCompartmentPagetable P.ps P.kernelPagetable root base size s.tables)
      (fun tables => (∃ nodesOf', Coherent P { s with tables := tables } nodesOf') ∧
        abs P { s with tables := tables } = (s.abs P).setView o (Set.Ico base (base + size))
          (fun _ => .null) (viewOf P s.tables root))
      (fun _ => True) := by
  rw [removeFromCompartmentPagetable]
  split
  case isTrue => trivial
  case isFalse haligned =>
      split
      case isTrue => trivial
      case isFalse =>
          refine ((coh.table o root h).remove (by omega) (by omega) bound).mono ?_
            (fun _ _ => trivial)
          rintro tables ⟨M, update⟩
          obtain ⟨coh', abs'⟩ := coh.update h update bound
          exact ⟨⟨_, coh'⟩, abs'⟩

/-- Mapping a range refines any action that changes the view in this way. -/
theorem addToCompartmentPagetable_action {action : Ownership.Action Nat CompartmentOwner}
    (coh : Coherent P s nodesOf) (h : s.roots o = some root) (bound : base + size ≤ 2 ^ 48)
    (step : Ownership.Step P.policy (s.abs P) action
      ((s.abs P).setView o (Set.Ico base (base + size)) (leafFor P.ps false .normal perm)
        (viewOf P s.tables root))) :
    Sat (addToCompartmentPagetable P.ps P.allocator root base size perm s.tables)
      (fun tables => Refines P s [action] { s with tables := tables }) (fun _ => True) := by
  refine (addToCompartmentPagetable_refines coh h bound).mono_post ?_
  rintro tables ⟨coh', abs'⟩
  refine ⟨coh', .cons ?_ (.nil _)⟩
  rw [abs']
  exact step

/-- Opening memory of its own to a compartment. -/
theorem mapOwn_refines (coh : Coherent P s nodesOf) (h : s.roots o = some root)
    (bound : base + size ≤ 2 ^ 48)
    (owned : ∀ a ∈ Set.Ico base (base + size), (s.abs P).owner a = o) :
    Sat (addToCompartmentPagetable P.ps P.allocator root base size .compartmentWrite s.tables)
      (fun tables => Refines P s [.mapOwn o (Set.Ico base (base + size))]
        { s with tables := tables })
      (fun _ => True) :=
  addToCompartmentPagetable_action coh h bound (.mapOwn (abs_view h) owned)

/-- Sharing memory that nobody owns with a compartment. -/
theorem mapShared_refines (coh : Coherent P s nodesOf) (h : s.roots o = some root)
    (bound : base + size ≤ 2 ^ 48)
    (free : ∀ a ∈ Set.Ico base (base + size), (s.abs P).owner a = .null) :
    Sat (addToCompartmentPagetable P.ps P.allocator root base size .compartmentRead s.tables)
      (fun tables => Refines P s [.mapShared o (Set.Ico base (base + size))]
        { s with tables := tables })
      (fun _ => True) :=
  addToCompartmentPagetable_action coh h bound (.mapShared (abs_view h) free)

theorem Coherent.setHandedOut (coh : Coherent P s nodesOf) (base size : Nat) (value : Bool) :
    Coherent P (s.setHandedOut P base size value) nodesOf :=
  ⟨coh.table, coh.apart, coh.links⟩

/-- An allocation claims its block and then opens it to its owner. -/
theorem allocRange_refines (coh : Coherent P s nodesOf) (known : o ≠ .null)
    (h : s.roots o = some root) (fresh : Event.Fresh P s base size) :
    Sat (s.allocRange P o size (some base))
      (Refines P s [.claim o (Set.Ico base (base + size)), .mapOwn o (Set.Ico base (base + size))])
      (fun _ => True) := by
  rw [allocRange, range_eq h, MonzaRange.allocRange_release known]
  have handed := coh.setHandedOut base size true
  refine ((OwnershipMap.addMonzaOwner_sat P.unit_pos fresh.aligned fresh.alignedSize fresh.bound
    handed.links (fun b hb => Nat.le_trans hb fresh.bound)).mono (fun _ h => h)
    (fun _ _ => trivial)).bind ?_
  rintro m ⟨update, links⟩
  obtain ⟨claimed, absClaimed⟩ := handed.setOwner update links
  have first : Refines P s [.claim o (Set.Ico base (base + size))]
      { s.setHandedOut P base size true with ownership := m } := by
    refine ⟨⟨_, claimed⟩, .cons ?_ (.nil _)⟩
    rw [absClaimed]
    exact .claim (abs_view h) (fun a ha => Platform.grantable_of_fresh fresh ha)
      (fun a ha => update.before a ha.1 ha.2)
  refine (mapOwn_refines claimed h fresh.bound (fun a ha => ?_)).bind
    (fun tables second => first.trans second)
  rw [absClaimed]
  exact Ownership.State.setOwner_of_mem ha

/-- A deallocation closes the view of its range and then releases it. Since the owners
have been checked when it returns, the memory was the compartment's all along. -/
theorem deallocRange_refines (coh : Coherent P s nodesOf) (known : o ≠ .null)
    (h : s.roots o = some root) (units : Event.Units P base size) :
    Sat (MonzaRange.deallocRange P .release ⟨o, root⟩ base size s)
      (fun t => Refines P s
        [.unmap o (Set.Ico base (base + size)), .release o (Set.Ico base (base + size))] t ∧
        t.roots = s.roots ∧ ∀ a ∈ Set.Ico base (base + size), (t.abs P).owner a = .null)
      (fun _ => True) := by
  rw [MonzaRange.deallocRange_release known]
  refine (removeFromCompartmentPagetable_refines coh h units.bound).bind ?_
  rintro tables ⟨⟨nodesOf', unmapped⟩, absUnmapped⟩
  refine ((OwnershipMap.removeMonzaOwner_sat P.unit_pos units.aligned units.alignedSize units.bound
    unmapped.links).mono (fun _ h => h) (fun _ _ => trivial)).bind ?_
  rintro m ⟨update, links⟩
  obtain ⟨released, absReleased⟩ := unmapped.setOwner update links
  have owned : ∀ a ∈ Set.Ico base (base + size), (s.abs P).owner a = o :=
    fun a ha => update.before a ha.1 ha.2
  have first : Ownership.Step P.policy (s.abs P) (.unmap o (Set.Ico base (base + size))) _ :=
    .unmap (abs_view h) owned
  refine ⟨⟨⟨_, released.setHandedOut base size false⟩, .cons first (.cons ?_ (.nil _))⟩, rfl, ?_⟩
  · change Ownership.Step P.policy _ _ (abs P { s with tables := tables, ownership := m })
    rw [absReleased, absUnmapped]
    refine .release Ownership.State.setView_self owned (fun a ha => ?_)
    exact Ownership.override_of_mem ha
  · intro a ha
    change (abs P { s with tables := tables, ownership := m }).owner a = .null
    rw [absReleased]
    exact Ownership.State.setOwner_of_mem ha

theorem reclaimBlock_refines {b : Nat} (coh : Coherent P s nodesOf) (known : o ≠ .null)
    (h : s.roots o = some root) (bounded : b * P.unit + P.unit ≤ 2 ^ 48) :
    Sat (MonzaRange.reclaimBlock P .release ⟨o, root⟩ b s)
      (fun t => (∃ S, Refines P s [.unmap o S, .release o S] t) ∧ t.roots = s.roots)
      (fun _ => True) := by
  have units : Event.Units P (b * P.unit) P.unit :=
    ⟨Nat.mul_mod_left _ _, Nat.mod_self _, bounded⟩
  refine (deallocRange_refines coh known h units).bind ?_
  rintro t ⟨⟨⟨nodesOf', coh'⟩, run⟩, roots, free⟩
  -- The owner is cleared a second time, which changes nothing.
  have same : abs P { t with ownership := t.ownership.setOwner b .null } = t.abs P := by
    refine abs_ext (fun a => ?_) rfl rfl
    rw [OwnershipMap.getMonzaOwner, OwnershipMap.setOwner_owner]
    split
    case isTrue hb =>
        refine (free a ?_).symm
        have := Nat.lt_div_mul_add P.unit_pos (a := a)
        have := Nat.div_mul_le_self a P.unit
        rw [← hb]
        exact ⟨by omega, by omega⟩
    case isFalse => rfl
  refine ⟨⟨Set.Ico (b * P.unit) (b * P.unit + P.unit),
    ⟨nodesOf', coh'.table, coh'.apart, coh'.links.setOwner⟩, ?_⟩, roots⟩
  rw [same]
  exact run

/-- Whatever the list of a range holds, reclaiming it only closes and releases memory. -/
theorem forallEntries_refines {fuel : Nat} {curr : Option ListLink} (coh : Coherent P s nodesOf)
    (known : o ≠ .null) (h : s.roots o = some root)
    (bounded : ∀ b, curr = some (.entry b) → b * P.unit + P.unit ≤ 2 ^ 48) :
    Sat (forallEntries ownership o (MonzaRange.reclaimBlock P .release ⟨o, root⟩) fuel curr s)
      (fun t => ∃ as, Refines P s as t ∧ ∀ a ∈ as, ∃ S, a = .unmap o S ∨ a = .release o S)
      (fun _ => True) := by
  induction fuel generalizing s curr nodesOf with
  | zero => trivial
  | succ fuel ih =>
      cases curr with
      | none => trivial
      | some l =>
          cases l with
          | head r =>
              rw [forallEntries]
              split
              case isTrue => exact ⟨[], ⟨⟨nodesOf, coh⟩, .nil _⟩, by simp⟩
              case isFalse => trivial
          | entry b =>
              rw [forallEntries]
              refine (reclaimBlock_refines coh known h (bounded b rfl)).bind ?_
              rintro t ⟨⟨S, first⟩, roots⟩
              obtain ⟨nodesOf', coh'⟩ := first.1
              refine (ih coh' (roots ▸ h) (coh.links.entry b).next).mono_post ?_
              rintro u ⟨as, rest, closing⟩
              refine ⟨_, first.trans rest, List.forall_mem_append.mpr ⟨?_, closing⟩⟩
              simp

theorem deallocAll_refines (coh : Coherent P s nodesOf) (known : o ≠ .null)
    (h : s.roots o = some root) :
    Sat (s.deallocAll P o)
      (fun t => ∃ as, Refines P s as t ∧ ∀ a ∈ as, ∃ S, a = .unmap o S ∨ a = .release o S)
      (fun _ => True) := by
  have coh' : Coherent P { s with ownership := s.ownership.lazyInit o } nodesOf :=
    ⟨coh.table, coh.apart, coh.links.lazyInit⟩
  have same : abs P { s with ownership := s.ownership.lazyInit o } = s.abs P :=
    abs_ext (fun a => OwnershipMap.lazyInit_owner) rfl rfl
  rw [deallocAll, range_eq h]
  refine (forallEntries_refines coh' known h (coh'.links.head o).next).mono_post ?_
  rintro t ⟨as, refines, closing⟩
  rw [Refines, same] at refines
  exact ⟨as, refines, closing⟩

/-- The page that a fault maps. -/
def faultPage (P : Platform) (address : Nat) : Set Nat :=
  Set.Ico (alignDown address P.ps.bytes) (alignDown address P.ps.bytes + P.ps.bytes)

theorem mem_faultPage {address a : Nat} :
    a ∈ faultPage P address ↔ a / P.ps.bytes = address / P.ps.bytes := by
  rw [div_eq_iff_between P.ps.bytes_pos, Nat.add_mul, Nat.one_mul]
  exact Iff.rfl

/-- All of a faulting page has the owner of the faulting address. -/
theorem owner_faultPage {address a : Nat} (ha : a ∈ faultPage P address) :
    (s.abs P).owner a = OwnershipMap.getMonzaOwner P.unit s.ownership address := by
  have := P.div_unit_eq (mem_faultPage.mp ha)
  change OwnershipMap.getMonzaOwner P.unit s.ownership a = _
  rw [OwnershipMap.getMonzaOwner, OwnershipMap.getMonzaOwner, this]

theorem faultPage_bound {address : Nat} (heap : P.heap.isHeapAddress address = true) :
    alignDown address P.ps.bytes + P.ps.bytes ≤ 2 ^ 48 := by
  obtain ⟨j, hj, hpow⟩ := P.ps.bytes_eq_two_pow
  refine add_le_of_mod (alignDown_mod _ _) ?_
    (Nat.lt_of_le_of_lt (alignDown_le _ _) (P.heapBelow address heap))
  rw [hpow]
  exact Nat.mod_eq_zero_of_dvd (Nat.pow_dvd_pow 2 hj)

/-- A handled fault opens a page of the compartment's own memory, or shares a page that
nobody owns if the access was a read. -/
theorem pageFaultHandler_refines {address : Nat} {err : BitVec 64} (coh : Coherent P s nodesOf)
    (h : s.roots o = some root) :
    Sat (s.pageFaultHandler P o address root err)
      (fun t => Refines P s [.mapOwn o (faultPage P address)] t ∨
        err &&& 0x2#64 = 0#64 ∧ P.heap.isHeapAddress address = true ∧
          Refines P s [.mapShared o (faultPage P address)] t)
      (fun _ => True) := by
  rw [pageFaultHandler_eq]
  cases decided : faultPermission P o address err s.ownership with
  | error f => trivial
  | ok perm =>
      obtain ⟨-, heap, ⟨own, rfl⟩ | ⟨-, read, rfl⟩⟩ := faultPermission_eq_ok.mp decided
      · refine (mapOwn_refines coh h (faultPage_bound heap)
          (fun a ha => (owner_faultPage ha).trans own)).bind (fun tables refines => ?_)
        exact Or.inl refines
      · refine (mapShared_refines coh h (faultPage_bound heap)
          (fun a ha => (owner_faultPage ha).trans read.2)).bind (fun tables refines => ?_)
        exact Or.inr ⟨read.1, heap, refines⟩

end Memory

end System

/-- The abstract actions an event may turn into. -/
def Event.Actions (P : Platform) (as : List (Ownership.Action Nat CompartmentOwner)) :
    Event → Prop
  | create o => as = [.create o]
  | alloc o size range => (o = .null ∨ range = none) ∧ as = [] ∨
      ∃ base, range = some base ∧ o ≠ .null ∧
      as = [.claim o (Set.Ico base (base + size)), .mapOwn o (Set.Ico base (base + size))]
  | dealloc o base size => as = [] ∨
      as = [.unmap o (Set.Ico base (base + size)), .release o (Set.Ico base (base + size))]
  | deallocAll o => ∀ a ∈ as, ∃ S, a = .unmap o S ∨ a = .release o S
  | pageFault o address err => as = [.mapOwn o (System.faultPage P address)] ∨
      err &&& 0x2#64 = 0#64 ∧ P.heap.isHeapAddress address = true ∧
        as = [.mapShared o (System.faultPage P address)]

variable {P : Platform} {s t : System} {e : Event}

/-- What holds of every state: the tables are apart and ownership is well formed. -/
structure System.WellFormed (P : Platform) (s : System) : Prop where
  coherent : ∃ nodesOf, s.Coherent P nodesOf
  owned : Ownership.WellOwned P.policy (s.abs P)

theorem System.Initial.wellFormed (init : s.Initial) : s.WellFormed P := by
  have none : ∀ o r, s.roots o ≠ some r := by
    intro o r
    rw [init.roots]
    exact (Option.some_ne_none r).symm
  have unowned : ∀ a, (s.abs P).owner a = .null := by
    intro a
    simp [System.abs, OwnershipMap.getMonzaOwner, init.ownership, OwnershipMap.empty]
  refine ⟨⟨fun _ => ∅, fun o r h => absurd h (none o r), fun _ _ _ _ _ a ha => ha.elim, ?_⟩, ?_,
    fun a ha => absurd (unowned a) ha, fun a ha => absurd (unowned a) ha⟩
  · rw [init.ownership]
    exact ⟨fun b => ⟨by simp [OwnershipMap.empty], by simp [OwnershipMap.empty]⟩,
      fun r => ⟨by simp [OwnershipMap.empty], by simp [OwnershipMap.empty]⟩⟩
  · simp [System.abs, init.roots]

theorem System.WellFormed.known (wf : s.WellFormed P) {o : CompartmentOwner}
    (h : s.roots o ≠ none) : o ≠ .null := by
  obtain ⟨root, hr⟩ := Option.ne_none_iff_exists'.mp h
  exact wf.owned.known (System.abs_view hr)

/-- Every completed event refines a run of its abstract actions. -/
theorem Event.Step.refines (wf : s.WellFormed P) (step : e.Step P s t) :
    ∃ as, System.Refines P s as t ∧ e.Actions P as := by
  obtain ⟨⟨nodesOf, coh⟩, -⟩ := id wf
  obtain ⟨legal, run⟩ := step
  cases e with
  | create o =>
      exact ⟨_, (System.createCompartment_refines coh legal.1 legal.2).of_ok run, rfl⟩
  | alloc o size range =>
      cases range with
      | none =>
          cases run
          exact ⟨[], ⟨⟨nodesOf, coh⟩, .nil _⟩, Or.inl ⟨Or.inr rfl, rfl⟩⟩
      | some base =>
          by_cases known : o = .null
          · subst known
            cases run
            exact ⟨[], ⟨⟨nodesOf, coh.setHandedOut _ _ true⟩, .nil _⟩, Or.inl ⟨Or.inl rfl, rfl⟩⟩
          · obtain ⟨root, hr⟩ := Option.ne_none_iff_exists'.mp (legal.1.resolve_left known)
            exact ⟨_, (System.allocRange_refines coh known hr legal.2).of_ok run,
              Or.inr ⟨base, rfl, known, rfl⟩⟩
  | dealloc o base size =>
      by_cases known : o = .null
      · subst known
        cases run
        exact ⟨[], ⟨⟨nodesOf, coh.setHandedOut base size false⟩, .nil _⟩, Or.inl rfl⟩
      · obtain ⟨root, hr⟩ := Option.ne_none_iff_exists'.mp (legal.1.resolve_left known)
        rw [Event.run, System.deallocRange, System.range_eq hr] at run
        exact ⟨_, ((System.deallocRange_refines coh known hr legal.2).of_ok run).1, Or.inr rfl⟩
  | deallocAll o =>
      obtain ⟨root, hr⟩ := Option.ne_none_iff_exists'.mp legal
      obtain ⟨as, refines, closing⟩ :=
        (System.deallocAll_refines coh (wf.known legal) hr).of_ok run
      exact ⟨as, refines, closing⟩
  | pageFault o address err =>
      obtain ⟨root, hr⟩ := Option.ne_none_iff_exists'.mp legal
      have run : s.pageFaultHandler P o address root err = .ok t := by
        rw [← System.rootOf_eq hr]
        exact run
      rcases (System.pageFaultHandler_refines coh hr).of_ok run with own | ⟨read, heap, shared⟩
      · exact ⟨_, own, Or.inl rfl⟩
      · exact ⟨_, shared, Or.inr ⟨read, heap, rfl⟩⟩

theorem System.WellFormed.step (wf : s.WellFormed P) (step : e.Step P s t) : t.WellFormed P := by
  obtain ⟨as, ⟨coherent, run⟩, -⟩ := step.refines wf
  exact ⟨coherent, wf.owned.run run⟩

/-- A property of leaves that the actions of an event keep is kept by the event. -/
theorem Event.Step.leaves {Q : CompartmentOwner → Nat → CompartmentOwner → PagetableEntry → Prop}
    (wf : s.WellFormed P) (step : e.Step P s t) (leaves : Ownership.Leaves Q (s.abs P))
    (stable : ∀ as, e.Actions P as →
      (∀ a ∈ as.head?, Ownership.Stable P.policy Q (s.abs P) a) ∧
        ∀ a ∈ as.tail, ∀ u, Ownership.Stable P.policy Q u a) :
    Ownership.Leaves Q (t.abs P) := by
  obtain ⟨as, ⟨-, run⟩, actions⟩ := step.refines wf
  obtain ⟨first, rest⟩ := stable as actions
  exact Ownership.Leaves.run run leaves wf.owned first rest

end Monza
