import Monza.Compartment.Isolation
import Monza.Ownership.Checked
import Mathlib.Data.List.Perm.Subperm

/-!
# The destruction of a range

`dealloc_all` walks the list of a range while the body of the walk takes the current entry out
of it. It gives every block that the range still holds back to the parent, once, and leaves
the blocks and the lists of all other ranges alone (`destruction_reclaims_once`).

The functions of `MonzaRange` are looked at in both builds, together with what the allocator keeps
about its chunks and with the calls to the parent range. What a debug build completes is
what a release build does (`System.RangesInv.run_of_runIn`).
-/

namespace Monza

open Outcome Radix Transition

/-- A system with the pagemap of the allocator, which has one entry per chunk, and with the
ranges passed to `parent.dealloc_range` so far. -/
structure Backend (ε : Type) where
  system : System
  metadata : Nat → ε
  returned : List (Nat × Nat)

/-- `Pagemap::set_metaentry` of the allocator, from the entries to the entries afterwards. -/
abbrev SetMetaentry (ε : Type) := (base size : Nat) → ε → (Nat → ε) → Nat → ε

/-- What the allocator promises: the entry is stored for every chunk of the range. -/
def SetMetaentry.StoresChunks {ε : Type} (set : SetMetaentry ε) (P : Platform) : Prop :=
  ∀ base size entry metadata c, set base size entry metadata c =
    if base ≤ c * 2 ^ P.minChunkBits ∧ c * 2 ^ P.minChunkBits < base + size then entry
    else metadata c

section

variable (P : Platform) (build : Build)

/-- `MonzaRange::alloc_range`. -/
def System.allocRangeIn (owner : CompartmentOwner) (size : Nat) (range : Option Nat) (s : System) :
    Result System :=
  (s.range owner).allocRange P build owner size range s

namespace Backend

variable {ε : Type} (setMetaentry : SetMetaentry ε) (defaultEntry : ε)

/-- `MonzaRange::dealloc_range`. -/
def deallocRange (owner : CompartmentOwner) (base size : Nat) (w : Backend ε) :
    Result (Backend ε) := do
  let s ← (w.system.range owner).deallocRange P build base size w.system
  .ok { w with system := s, returned := w.returned ++ [(base, size)] }

/-- The body of `dealloc_all`. -/
def reclaimBlock (owner : CompartmentOwner) (b : Nat) (w : Backend ε) : Result (Backend ε) := do
  let w := { w with metadata := setMetaentry (b * P.unit) P.unit defaultEntry w.metadata }
  let w ← w.deallocRange P build owner (b * P.unit) P.unit
  .ok { w with system := { w.system with ownership := w.system.ownership.setOwner b .null } }

/-- `MonzaRange::dealloc_all`. -/
def deallocAll (owner : CompartmentOwner) (w : Backend ε) : Result (Backend ε) :=
  let w := { w with system := { w.system with ownership := w.system.ownership.lazyInit owner } }
  System.forallEntries (·.system.ownership) owner
    (reclaimBlock P build setMetaentry defaultEntry owner) OwnershipMap.blockLoopBudget
    (w.system.ownership.heads owner).next w

end Backend

/-- The events in a build. What the allocator keeps has no influence on them. -/
def Event.runIn : Event → System → Result System
  | create owner, s => s.createCompartment P owner
  | alloc owner size range, s => s.allocRangeIn P build owner size range
  | dealloc owner base size, s =>
      Backend.system <$> Backend.deallocRange P build owner base size ⟨s, fun _ => (), []⟩
  | deallocAll owner, s =>
      Backend.system <$> Backend.deallocAll P build (fun _ _ _ metadata => metadata) () owner
        ⟨s, fun _ => (), []⟩
  | pageFault owner address err, s => s.pageFaultHandler P owner address (s.rootOf owner) err

/-- One completed event in a build. -/
def Event.StepIn (s : System) (e : Event) (t : System) : Prop :=
  e.Legal P s ∧ e.runIn P build s = .ok t

end

namespace System

variable {P : Platform} {build : Build} {s t s₀ : System} {nodesOf : CompartmentOwner → Set Nat}
variable {o owner : CompartmentOwner} {root base size b : Nat} {done rest : List Nat}

/-! ## One block -/

/-- A compartment's own table lets any range go. -/
theorem removeFromCompartmentPagetable_total (coh : Coherent P s nodesOf)
    (h : s.roots o = some root) (apart : root ≠ P.kernelPagetable)
    (units : Event.Units P base size) : ∃ tables nodesOf',
      removeFromCompartmentPagetable P.ps P.kernelPagetable root base size s.tables = .ok tables ∧
      Coherent P { s with tables := tables } nodesOf' ∧
      (∀ a ∈ s.tables.live, a ∈ tables.live) ∧
      ∀ o' r, s.roots o' = some r → ∀ a, viewOf P tables r a =
        if o' = o ∧ base ≤ a ∧ a < base + size then .null else viewOf P s.tables r a := by
  have aligned : base % P.ps.bytes = 0 := Nat.mod_eq_zero_of_dvd
    (Nat.dvd_trans P.bytes_dvd_unit (Nat.dvd_of_mod_eq_zero units.aligned))
  have alignedSize : size % P.ps.bytes = 0 := Nat.mod_eq_zero_of_dvd
    (Nat.dvd_trans P.bytes_dvd_unit (Nat.dvd_of_mod_eq_zero units.alignedSize))
  obtain ⟨tables, done, M, update⟩ :=
    ((coh.table o root h).remove aligned alignedSize units.bound).total
  refine ⟨tables, _, ?_, (coh.update h update units.bound).1, update.grown.live, ?_⟩
  · rw [removeFromCompartmentPagetable, if_neg (by omega), if_neg apart, done]
  · intro o' r hr a
    by_cases ho : o' = o
    · subst ho
      cases h.symm.trans hr
      simp only [viewOf, true_and]
      have bound := units.bound
      by_cases ha : a < 2 ^ 48
      · rw [if_pos ha, if_pos ha, update.entry a ha]
      · rw [if_neg ha, if_neg ha, if_neg (by omega)]
    · rw [if_neg (fun no => ho no.1)]
      have live : s.roots o ≠ none := fun no => by rw [h] at no; cases no
      have live' : s.roots o' ≠ none := fun no => by rw [hr] at no; cases no
      exact congrFun (coh.viewOf_other update.grown hr (coh.apart o' o ho live' live)) a

/-- A state in the middle of `dealloc_all`: some blocks of `s₀` are reclaimed, all else is as it
was. -/
structure Reclaimed (P : Platform) (owner : CompartmentOwner) (s₀ : System) (done : List Nat)
    (s : System) : Prop where
  coherent : ∃ nodesOf, Coherent P s nodesOf
  lists : s.ownership.OwnedLists
  roots : s.roots = s₀.roots
  live : ∀ a ∈ s₀.tables.live, a ∈ s.tables.live
  mine : ∀ b ∈ done, (s₀.ownership.entries b).owner = owner
  owners : ∀ b, (s.ownership.entries b).owner =
    if b ∈ done then .null else (s₀.ownership.entries b).owner
  views : ∀ o r, s₀.roots o = some r → ∀ a, viewOf P s.tables r a =
    if o = owner ∧ a / P.unit ∈ done then .null else viewOf P s₀.tables r a
  handedOut : ∀ b, s.handedOut b = if b ∈ done then false else s₀.handedOut b
  others : ∀ r, r ≠ owner → ∀ a, OwnershipMap.Belongs s₀.ownership.ownerList r a →
    s₀.ownership.links.SameAt s.ownership.links a

/-- What the destructor needs to run. -/
structure Reclaimable (P : Platform) (owner : CompartmentOwner) (s : System) : Prop where
  known : owner ≠ .null
  created : ∃ root, s.roots owner = some root ∧ root ≠ P.kernelPagetable
  bounded : ∀ b, (s.ownership.entries b).owner = owner → b * P.unit + P.unit ≤ 2 ^ 48

theorem Reclaimable.apart_of_created (h : Reclaimable P owner s)
    (created : s.roots owner = some root) : root ≠ P.kernelPagetable := by
  obtain ⟨root', created', apart⟩ := h.created
  cases created.symm.trans created'
  exact apart

theorem units_of_bounded (bounded : b * P.unit + P.unit ≤ 2 ^ 48) :
    Event.Units P (b * P.unit) P.unit :=
  ⟨Nat.mul_mod_left _ _, Nat.mod_self _, bounded⟩

theorem mem_block_iff {a : Nat} :
    b * P.unit ≤ a ∧ a < b * P.unit + P.unit ↔ a / P.unit = b := by
  have := P.unit_pos
  rw [Nat.div_eq_iff P.unit_pos]
  omega

theorem Reclaimed.mine_of_owner {c : Nat} (h : Reclaimed P owner s₀ done s) (known : owner ≠ .null)
    (own : (s.ownership.entries c).owner = owner) :
    c ∉ done ∧ (s₀.ownership.entries c).owner = owner := by
  have notDone : c ∉ done := by
    intro hc
    rw [h.owners c, if_pos hc] at own
    exact known own.symm
  exact ⟨notDone, by rw [← own, h.owners c, if_neg notDone]⟩

/-- What belongs to another owner is not among the reclaimed blocks. -/
theorem Reclaimed.belongs {r : CompartmentOwner} {a : ListLink} (h : Reclaimed P owner s₀ done s)
    (known : owner ≠ .null) (other : r ≠ owner)
    (belongs : OwnershipMap.Belongs s₀.ownership.ownerList r a) :
    OwnershipMap.Belongs s.ownership.ownerList r a := by
  cases a with
  | head q => exact belongs
  | entry c =>
      have notDone : c ∉ done := by
        intro hc
        have mine := (OwnershipMap.ownerList_eq_some known).mpr (h.mine c hc)
        exact other (Option.some.inj (belongs.symm.trans mine))
      have same : s.ownership.ownerList c = s₀.ownership.ownerList c := by
        rw [OwnershipMap.ownerList, OwnershipMap.ownerList, h.owners c, if_neg notDone]
      exact same.trans belongs

/-- Blocks are reclaimed one after another. -/
theorem Reclaimed.trans {done' : List Nat} (h : Reclaimed P owner s₀ done s)
    (h' : Reclaimed P owner s done' t) (known : owner ≠ .null) :
    Reclaimed P owner s₀ (done ++ done') t := by
  constructor
  · exact h'.coherent
  · exact h'.lists
  · exact h'.roots.trans h.roots
  · exact fun a ha => h'.live a (h.live a ha)
  · intro c hc
    obtain before | now := List.mem_append.mp hc
    · exact h.mine c before
    · exact (h.mine_of_owner known (h'.mine c now)).2
  · intro c
    rw [h'.owners c, h.owners c]
    by_cases now : c ∈ done'
    · simp [now]
    · simp [now]
  · intro o r hr a
    rw [h'.views o r (h.roots ▸ hr) a, h.views o r hr a]
    by_cases ho : o = owner
    · by_cases now : a / P.unit ∈ done'
      · simp [ho, now]
      · simp [ho, now]
    · simp [ho]
  · intro c
    rw [h'.handedOut c, h.handedOut c]
    by_cases now : c ∈ done'
    · simp [now]
    · simp [now]
  · intro r other a belongs
    exact (h.others r other a belongs).trans (h'.others r other a (h.belongs known other belongs))

/-- The blocks left of the owner after the first has gone. -/
theorem mem_rest_iff {owners owners' : Nat → CompartmentOwner} (known : owner ≠ .null)
    (nodup : (b :: rest).Nodup) (mem : ∀ c, c ∈ b :: rest ↔ owners c = owner)
    (after : ∀ c, owners' c = if c = b then .null else owners c) (c : Nat) :
    c ∈ rest ↔ owners' c = owner := by
  rw [after c]
  by_cases hc : c = b
  · subst hc
    rw [if_pos rfl]
    exact ⟨fun no => absurd no (List.nodup_cons.mp nodup).1, fun no => absurd no.symm known⟩
  · rw [if_neg hc, ← mem c, List.mem_cons]
    exact ⟨Or.inr, fun h => h.resolve_left hc⟩

/-- The body of the walk, at the first entry of the list. -/
theorem reclaimBlock_first (coh : Coherent P s nodesOf) (lists : s.ownership.OwnedLists)
    (known : owner ≠ .null) (here : s.roots owner = some root) (apart : root ≠ P.kernelPagetable)
    (bounded : b * P.unit + P.unit ≤ 2 ^ 48)
    (circle : Ring.Circle s.ownership.links (.head owner) ((b :: rest).map .entry))
    (mem : ∀ c, c ∈ b :: rest ↔ (s.ownership.entries c).owner = owner) :
    ∃ t, MonzaRange.reclaimBlock P .release ⟨owner, root⟩ b s = .ok t ∧
      Reclaimed P owner s [b] t ∧
      Ring.Circle t.ownership.links (.head owner) (rest.map .entry) ∧
      ∀ c, c ∈ rest ↔ (t.ownership.entries c).owner = owner := by
  obtain ⟨tables, nodesOf', unmap, coh', live, views⟩ :=
    removeFromCompartmentPagetable_total coh here apart (units_of_bounded bounded)
  obtain ⟨m, removed, lists', owners, circle', others⟩ := lists.removeFirst known circle mem
  have links : m.Links (fun b => b * P.unit + P.unit ≤ 2 ^ 48) := by
    obtain ⟨-, removed⟩ := guard_eq_ok.mp removed
    exact coh.links.setOwner.removeFromList.of_ok removed
  have free : (m.entries b).owner = .null := by
    rw [owners b, if_pos rfl]
  have owners' : ∀ c, ((m.setOwner b .null).entries c).owner =
      if c = b then .null else (s.ownership.entries c).owner := by
    intro c
    rw [OwnershipMap.setOwner_owner, owners c]
    split <;> rfl
  refine ⟨{ s with
      tables := tables
      ownership := m.setOwner b .null
      handedOut := fun c => if b * P.unit ≤ c * P.unit ∧ c * P.unit < b * P.unit + P.unit
        then false else s.handedOut c }, ?_, ?_, ?_, ?_⟩
  · have remove := (OwnershipMap.removeMonzaOwner_unit P.unit_pos (by omega)).trans removed
    rw [MonzaRange.reclaimBlock, MonzaRange.deallocRange_release known, unmap]
    change (s.ownership.removeMonzaOwner P.unit (b * P.unit) P.unit owner >>= _) >>= _ = _
    rw [remove]
    rfl
  · refine ⟨⟨nodesOf', coh'.table, coh'.apart, links.setOwner⟩, lists'.clearOwner free, rfl, live,
      ?_, ?_, ?_, ?_, ?_⟩
    · intro c hc
      rw [List.mem_singleton.mp hc]
      exact (mem b).mp List.mem_cons_self
    · intro c
      simp only [List.mem_singleton]
      exact owners' c
    · intro o r hr a
      simp only [List.mem_singleton, ← mem_block_iff]
      exact views o r hr a
    · intro c
      simp only [List.mem_singleton, mem_block_iff, Nat.mul_div_cancel c P.unit_pos]
    · intro r other a belongs
      change s.ownership.links.SameAt (m.setOwner b .null).links a
      rw [OwnershipMap.links_setOwner]
      exact others r other a belongs
  · change Ring.Circle (m.setOwner b .null).links _ _
    rw [OwnershipMap.links_setOwner]
    exact circle'
  · exact mem_rest_iff known (List.nodup_cons.mp circle.nodup).2.of_map mem owners'

/-- The body of the walk, after some blocks. -/
theorem Reclaimed.block (h : Reclaimed P owner s₀ done s) (ready : Reclaimable P owner s₀)
    (created : s₀.roots owner = some root)
    (circle : Ring.Circle s.ownership.links (.head owner) ((b :: rest).map .entry))
    (mem : ∀ c, c ∈ b :: rest ↔ (s.ownership.entries c).owner = owner) :
    ∃ t, MonzaRange.reclaimBlock P .release ⟨owner, root⟩ b s = .ok t ∧
      Reclaimed P owner s₀ (done ++ [b]) t ∧
      Ring.Circle t.ownership.links (.head owner) (rest.map .entry) ∧
      ∀ c, c ∈ rest ↔ (t.ownership.entries c).owner = owner := by
  have apart := ready.apart_of_created created
  obtain ⟨nodesOf, coh⟩ := h.coherent
  have own := (h.mine_of_owner ready.known ((mem b).mp List.mem_cons_self)).2
  obtain ⟨t, run, one, circle', mem'⟩ :=
    reclaimBlock_first coh h.lists ready.known (h.roots ▸ created) apart (ready.bounded b own)
      circle mem
  exact ⟨t, run, h.trans one ready.known, circle', mem'⟩

/-- A deallocation in either build. -/
theorem deallocRange_build (build : Build) (lists : s.ownership.OwnedLists)
    (units : Event.Units P base size) :
    (s.range owner).deallocRange P build base size s = s.deallocRange P owner base size := by
  rw [deallocRange, MonzaRange.deallocRange, OwnershipMap.assertUnits_eq_ok units.alignedSize,
    MonzaRange.deallocRange, OwnershipMap.assertUnits_release]
  have same : (s.range owner).disown P build base size s =
      (s.range owner).disown P .release base size s := by
    rw [MonzaRange.disown, MonzaRange.disown]
    by_cases known : (s.range owner).owner ≠ .null
    · rw [if_pos known, if_pos known, OwnershipMap.removeMonzaOwnerIn_release,
        lists.removeMonzaOwnerIn known P.unit_pos (Nat.lt_of_le_of_lt units.bound (by decide))
          units.alignedSize]
    · rw [if_neg known, if_neg known]
  rw [same]

end System

namespace Backend

variable {P : Platform} {build : Build} {ε : Type} {setMetaentry : SetMetaentry ε}
variable {defaultEntry : ε} {w : Backend ε}
variable {owner : CompartmentOwner} {base size b : Nat} {s₀ s t : System}
variable {done rest : List Nat} {metadata : Nat → ε} {returned : List (Nat × Nat)}

/-- A deallocation in either build, with the call to the parent. -/
theorem deallocRange_eq (w : Backend ε) (owner : CompartmentOwner)
    (lists : w.system.ownership.OwnedLists) (units : Event.Units P base size) :
    w.deallocRange P build owner base size =
      (fun s => { w with system := s, returned := w.returned ++ [(base, size)] }) <$>
        w.system.deallocRange P owner base size := by
  rw [deallocRange, System.deallocRange_build build lists units]
  cases w.system.deallocRange P owner base size <;> rfl

/-- The pagemap of the allocator with the chunks of some blocks reset. -/
def resetMetadata (P : Platform) (defaultEntry : ε) (blocks : List Nat) (metadata : Nat → ε)
    (c : Nat) : ε :=
  if c * 2 ^ P.minChunkBits / P.unit ∈ blocks then defaultEntry else metadata c

theorem setMetaentry_reset (stores : setMetaentry.StoresChunks P) :
    setMetaentry (b * P.unit) P.unit defaultEntry (resetMetadata P defaultEntry done metadata) =
      resetMetadata P defaultEntry (done ++ [b]) metadata := by
  funext c
  rw [stores]
  simp only [resetMetadata, System.mem_block_iff, List.mem_append, List.mem_singleton]
  by_cases hb : c * 2 ^ P.minChunkBits / P.unit = b
  · simp [hb]
  · simp [hb]

theorem reclaimBlock_eq (stores : setMetaentry.StoresChunks P) (lists : s.ownership.OwnedLists)
    (units : Event.Units P (b * P.unit) P.unit) :
    reclaimBlock P build setMetaentry defaultEntry owner b
        ⟨s, resetMetadata P defaultEntry done metadata, returned⟩ =
      (⟨·, resetMetadata P defaultEntry (done ++ [b]) metadata,
        returned ++ [(b * P.unit, P.unit)]⟩) <$> (s.range owner).reclaimBlock P .release b s := by
  rw [reclaimBlock]
  simp only [setMetaentry_reset stores]
  rw [deallocRange_eq _ owner lists units, MonzaRange.reclaimBlock]
  change (_ <$> s.deallocRange P owner (b * P.unit) P.unit >>= _) =
    _ <$> (s.deallocRange P owner (b * P.unit) P.unit >>= _)
  cases s.deallocRange P owner (b * P.unit) P.unit <;> rfl

/-- The walk over a list of `rest` when the blocks of `done` are reclaimed already. The entries
are taken out in front of the walk: what it reads next is the new first entry. -/
theorem forallEntries_reclaims (build : Build) (stores : setMetaentry.StoresChunks P)
    (defaultEntry : ε) (metadata : Nat → ε) (returned : List (Nat × Nat)) {fuel root : Nat}
    (ready : System.Reclaimable P owner s₀) (created : s₀.roots owner = some root)
    (h : System.Reclaimed P owner s₀ done s)
    (circle : Ring.Circle s.ownership.links (.head owner) (rest.map .entry))
    (mem : ∀ c, c ∈ rest ↔ (s.ownership.entries c).owner = owner) (budget : rest.length < fuel) :
    ∃ t, System.forallEntries System.ownership owner
        (MonzaRange.reclaimBlock P .release ⟨owner, root⟩) fuel (s.ownership.heads owner).next s =
        .ok t ∧
      System.forallEntries (·.system.ownership) owner
        (reclaimBlock P build setMetaentry defaultEntry owner) fuel (s.ownership.heads owner).next
        ⟨s, resetMetadata P defaultEntry done metadata, returned⟩ =
        .ok ⟨t, resetMetadata P defaultEntry (done ++ rest) metadata,
          returned ++ rest.map fun b => (b * P.unit, P.unit)⟩ ∧
      System.Reclaimed P owner s₀ (done ++ rest) t := by
  induction rest generalizing s done returned fuel with
  | nil =>
      obtain ⟨fuel, rfl⟩ := Nat.exists_eq_succ_of_ne_zero (Nat.ne_zero_of_lt budget)
      have next : (s.ownership.heads owner).next = some (.head owner) := circle.next_head
      refine ⟨s, ?_, ?_, ?_⟩
      · rw [next, System.forallEntries, if_pos rfl]
      · rw [next, System.forallEntries, if_pos rfl, List.map_nil, List.append_nil, List.append_nil]
      · rw [List.append_nil]
        exact h
  | cons b rest ih =>
      obtain ⟨fuel, rfl⟩ := Nat.exists_eq_succ_of_ne_zero (Nat.ne_zero_of_lt budget)
      have next : (s.ownership.heads owner).next = some (.entry b) := circle.next_head
      obtain ⟨t, reclaimed, h', circle', mem'⟩ := h.block ready created circle mem
      have behind : (s.ownership.entries b).next = (t.ownership.heads owner).next :=
        circle.next_first.trans circle'.next_head.symm
      obtain ⟨u, walked, walked', h''⟩ := ih _ h' circle' mem' (Nat.lt_of_succ_lt_succ budget)
      have units := System.units_of_bounded (ready.bounded b (h'.mine b (by simp)))
      refine ⟨u, ?_, ?_, ?_⟩
      · rw [next, System.forallEntries, reclaimed, behind]
        exact walked
      · rw [next, System.forallEntries, reclaimBlock_eq stores h.lists units,
          System.range_eq (h.roots ▸ created), reclaimed]
        rw [List.append_assoc, List.append_assoc] at walked'
        rw [behind]
        exact walked'
      · rw [List.append_assoc] at h''
        exact h''

theorem resetMetadata_nil : resetMetadata P defaultEntry [] metadata = metadata := by
  funext c
  simp [resetMetadata]

/-- Blocks that the tables can map are few. -/
theorem length_lt_budget {order : List Nat} (distinct : order.Nodup)
    (bounded : ∀ b ∈ order, b * P.unit + P.unit ≤ 2 ^ 48) :
    order.length < OwnershipMap.blockLoopBudget := by
  have inside : order ⊆ List.range (2 ^ 48) := by
    intro b hb
    have := bounded b hb
    have := Nat.le_mul_of_pos_right b P.unit_pos
    have := P.unit_pos
    exact List.mem_range.mpr (by omega)
  have := (distinct.subperm inside).length_le
  rw [List.length_range] at this
  unfold OwnershipMap.blockLoopBudget
  omega

/-- `dealloc_all` goes over the list of the range and reclaims all of it. -/
theorem deallocAll_reclaims (build : Build) (stores : setMetaentry.StoresChunks P)
    (defaultEntry : ε) (metadata : Nat → ε) (ready : System.Reclaimable P owner s)
    (coherent : ∃ nodesOf, System.Coherent P s nodesOf) (lists : s.ownership.OwnedLists) :
    ∃ order t, s.ownership.HasList owner order ∧
      (∀ b, b ∈ order ↔ (s.ownership.entries b).owner = owner) ∧
      s.deallocAll P owner = .ok t ∧
      deallocAll P build setMetaentry defaultEntry owner ⟨s, metadata, []⟩ =
        .ok ⟨t, resetMetadata P defaultEntry order metadata,
          order.map fun b => (b * P.unit, P.unit)⟩ ∧
      System.Reclaimed P owner s order t := by
  obtain ⟨nodesOf, coh⟩ := coherent
  obtain ⟨order, mem, list⟩ := lists owner
  have mem : ∀ b, b ∈ order ↔ (s.ownership.entries b).owner = owner :=
    fun b => (mem b).trans (OwnershipMap.ownerList_eq_some ready.known)
  have start : System.Reclaimed P owner s []
      { s with ownership := s.ownership.lazyInit owner } := by
    constructor
    · exact ⟨nodesOf, coh.table, coh.apart, coh.links.lazyInit⟩
    · exact lists.lazyInit
    · rfl
    · exact fun _ ha => ha
    · exact fun _ no => by cases no
    · exact fun _ => OwnershipMap.lazyInit_owner
    · intro o r hr a
      simp
    · intro b
      simp
    · intro r other a belongs
      apply OwnershipMap.lazyInit_sameAt
      rintro rfl
      exact other belongs.symm
  have mem' : ∀ b, b ∈ order ↔ ((s.ownership.lazyInit owner).entries b).owner = owner := by
    intro b
    rw [OwnershipMap.lazyInit_owner]
    exact mem b
  have budget := length_lt_budget list.nodup fun b hb => ready.bounded b ((mem b).mp hb)
  obtain ⟨root, created, -⟩ := ready.created
  obtain ⟨t, walked, walked', reclaimed⟩ := forallEntries_reclaims build stores defaultEntry
    metadata [] ready created start list.lazyInit mem' budget
  rw [resetMetadata_nil] at walked'
  refine ⟨order, t, list, mem, ?_, walked', reclaimed⟩
  rw [System.deallocAll, System.range_eq created]
  exact walked

end Backend

/-! ## Histories -/

namespace System

variable {P : Platform} {build : Build} {s t : System} {o owner : CompartmentOwner}
variable {base size : Nat}

/-- What holds of the ranges between events. The table of the kernel was there before the first
compartment. -/
structure RangesInv (P : Platform) (s : System) : Prop where
  wellFormed : s.WellFormed P
  lists : s.ownership.OwnedLists
  holders : ∀ b, (s.ownership.entries b).owner ≠ .null →
    s.roots (s.ownership.entries b).owner ≠ none
  kernel : P.kernelPagetable ∈ s.tables.live
  apart : ∀ o root, s.roots o = some root → root ≠ P.kernelPagetable

theorem Initial.rangesInv (init : s.Initial) (kernel : P.kernelPagetable ∈ s.tables.live) :
    RangesInv P s := by
  refine ⟨init.wellFormed, ?_, ?_, kernel, ?_⟩
  · rw [init.ownership]
    exact OwnershipMap.OwnedLists.empty
  · intro b owned
    rw [init.ownership] at owned
    exact absurd rfl owned
  · intro o root h
    rw [init.roots] at h
    cases h

theorem RangesInv.reclaimable (inv : RangesInv P s) (created : s.roots owner ≠ none) :
    Reclaimable P owner s := by
  obtain ⟨root, h⟩ := Option.ne_none_iff_exists'.mp created
  have known := inv.wellFormed.known created
  refine ⟨known, ⟨root, h, inv.apart owner root h⟩, fun b own => ?_⟩
  have granted := inv.wellFormed.owned.granted (b * P.unit) (by
    change OwnershipMap.getMonzaOwner P.unit s.ownership (b * P.unit) ≠ .null
    rw [OwnershipMap.getMonzaOwner, Nat.mul_div_cancel b P.unit_pos, own]
    exact known)
  have := granted.1
  rwa [Nat.mul_div_cancel b P.unit_pos] at this

theorem allocRangeIn_eq (lists : s.ownership.OwnedLists) (units : Event.Units P base size) :
    s.allocRangeIn P build owner size (some base) = s.allocRange P owner size (some base) := by
  rw [allocRangeIn, MonzaRange.allocRange, OwnershipMap.assertUnits_eq_ok units.alignedSize,
    allocRange, MonzaRange.allocRange, OwnershipMap.assertUnits_release]
  by_cases known : (s.range owner).owner ≠ .null
  · have same : (s.setHandedOut P base size true).ownership.addMonzaOwnerIn build P.unit base size
        (s.range owner).owner (some owner) =
        (s.setHandedOut P base size true).ownership.addMonzaOwnerIn .release P.unit base size
          (s.range owner).owner (some owner) :=
      (lists.addMonzaOwnerIn known P.unit_pos (Nat.lt_of_le_of_lt units.bound (by decide))
        units.alignedSize).trans OwnershipMap.addMonzaOwnerIn_release.symm
    simp only [if_pos known, same]
  · simp only [if_neg known]

/-- What a debug build completes a release build completes in the same way. -/
theorem RangesInv.run_of_runIn {e : Event} (inv : RangesInv P s) (legal : e.Legal P s)
    (done : e.runIn P build s = .ok t) : e.run P s = .ok t := by
  cases e with
  | create owner => exact done
  | alloc owner size range =>
      cases range with
      | none =>
          obtain ⟨-, -, done⟩ := bind_eq_ok.mp done
          exact done
      | some base => exact (allocRangeIn_eq inv.lists legal.2.toUnits).symm.trans done
  | dealloc owner base size =>
      rw [Event.runIn, Backend.deallocRange_eq _ owner inv.lists legal.2] at done
      rw [Event.run]
      cases run : s.deallocRange P owner base size with
      | error f =>
          rw [run] at done
          cases done
      | ok u =>
          rw [run] at done
          exact done
  | deallocAll owner =>
      obtain ⟨order, u, -, -, released, checked, -⟩ := Backend.deallocAll_reclaims build
        (fun _ _ _ _ _ => rfl) () (fun _ => ()) (inv.reclaimable legal) inv.wellFormed.coherent
        inv.lists
      rw [Event.runIn, checked] at done
      cases done
      exact released
  | pageFault owner address err => exact done

/-! ### What one event does -/

theorem createCompartment_eq_ok (done : s.createCompartment P owner = .ok t) :
    ∃ root tables, root ∉ s.tables.live ∧ (∀ a ∈ s.tables.live, a ∈ tables.live) ∧
      t = { s with
        tables := tables
        roots := Function.update s.roots owner (some root)
        ownership := s.ownership.newHead owner } := by
  obtain ⟨⟨root, tables⟩, created, same⟩ := bind_eq_ok.mp done
  obtain ⟨⟨M, table, grown, -⟩, -⟩ := (createCompartmentPagetable_sat P.fits).of_ok created
  exact ⟨root, tables, grown.fresh root table.tree.root_mem (Set.notMem_empty root), grown.live,
    (Except.ok.inj same).symm⟩

/-- Adding to a compartment's table only takes new nodes. -/
theorem addToCompartmentPagetable_live {root : Nat} {perm : PagetablePermission}
    {tables : PagetableStore} {nodesOf : CompartmentOwner → Set Nat} (coh : Coherent P s nodesOf)
    (h : s.roots owner = some root) (bound : base + size ≤ 2 ^ 48)
    (done : addToCompartmentPagetable P.ps P.allocator root base size perm s.tables =
      .ok tables) : ∀ a ∈ s.tables.live, a ∈ tables.live := by
  obtain ⟨aligned, done⟩ := guard_eq_ok.mp done
  obtain ⟨M, update⟩ := ((coh.table owner root h).add rfl (by omega) (by omega) bound).of_ok done
  exact update.grown.live

/-- An allocation for a compartment. -/
theorem allocRange_eq_ok {root : Nat} {nodesOf : CompartmentOwner → Set Nat}
    (coh : Coherent P s nodesOf) (known : owner ≠ .null) (created : s.roots owner = some root)
    (units : Event.Units P base size) (done : s.allocRange P owner size (some base) = .ok t) :
    s.ownership.addMonzaOwner P.unit base size owner (some owner) = .ok t.ownership ∧
      t.roots = s.roots ∧ ∀ a ∈ s.tables.live, a ∈ t.tables.live := by
  rw [allocRange, range_eq created, MonzaRange.allocRange_release known] at done
  obtain ⟨m, owned, done⟩ := bind_eq_ok.mp done
  obtain ⟨tables, mapped, same⟩ := bind_eq_ok.mp done
  rw [← Except.ok.inj same]
  exact ⟨owned, rfl, addToCompartmentPagetable_live coh created units.bound mapped⟩

/-- A deallocation by a compartment. -/
theorem deallocRange_eq_ok {root : Nat} {nodesOf : CompartmentOwner → Set Nat}
    (coh : Coherent P s nodesOf) (known : owner ≠ .null) (created : s.roots owner = some root)
    (apart : root ≠ P.kernelPagetable) (units : Event.Units P base size)
    (done : s.deallocRange P owner base size = .ok t) :
    s.ownership.removeMonzaOwner P.unit base size owner = .ok t.ownership ∧
      t.roots = s.roots ∧ ∀ a ∈ s.tables.live, a ∈ t.tables.live := by
  rw [deallocRange, range_eq created, MonzaRange.deallocRange_release known] at done
  obtain ⟨tables, unmapped, done⟩ := bind_eq_ok.mp done
  obtain ⟨m, owned, same⟩ := bind_eq_ok.mp done
  obtain ⟨tables', -, unmapped', -, live, -⟩ :=
    removeFromCompartmentPagetable_total coh created apart units
  cases unmapped.symm.trans unmapped'
  rw [← Except.ok.inj same]
  exact ⟨owned, rfl, live⟩

/-- A handled fault changes the table of the compartment only. -/
theorem pageFaultHandler_eq_ok {root address : Nat} {err : BitVec 64}
    {nodesOf : CompartmentOwner → Set Nat} (coh : Coherent P s nodesOf)
    (created : s.roots owner = some root)
    (done : s.pageFaultHandler P owner address root err = .ok t) :
    t.ownership = s.ownership ∧ t.roots = s.roots ∧ ∀ a ∈ s.tables.live, a ∈ t.tables.live := by
  obtain ⟨perm, tables, decided, mapped, rfl⟩ := pageFaultHandler_cases done
  have heap := (faultPermission_eq_ok.mp decided).2.1
  exact ⟨rfl, rfl, addToCompartmentPagetable_live coh created (faultPage_bound heap) mapped⟩

end System

namespace Event

variable {P : Platform} {build : Build} {s t : System} {e : Event} {owner : CompartmentOwner}

/-- Which blocks every range holds after an event, by the calls alone. -/
def holds (P : Platform) (held : CompartmentOwner → Nat → Bool) : Event →
    CompartmentOwner → Nat → Bool
  | alloc o size (some base), r, b =>
      if r = o ∧ base ≤ b * P.unit ∧ b * P.unit < base + size then true else held r b
  | dealloc o base size, r, b =>
      if r = o ∧ base ≤ b * P.unit ∧ b * P.unit < base + size then false else held r b
  | deallocAll o, r, b => if r = o then false else held r b
  | create _, r, b | alloc _ _ none, r, b | pageFault _ _ _, r, b => held r b

/-- Which blocks every range holds after a history. -/
def heldAfter (P : Platform) (events : List Event) : CompartmentOwner → Nat → Bool :=
  events.foldl (fun held e => e.holds P held) fun _ _ => false

/-- What is held is what is owned. -/
def Holds (held : CompartmentOwner → Nat → Bool) (s : System) : Prop :=
  ∀ r, r ≠ .null → ∀ b, held r b = true ↔ (s.ownership.entries b).owner = r

/-- What an event does to tables, lists and owners. -/
structure Effect (P : Platform) (s : System) (e : Event) (t : System) : Prop where
  live : ∀ a ∈ s.tables.live, a ∈ t.tables.live
  roots : ∀ o root, t.roots o = some root → s.roots o = some root ∨ root ∉ s.tables.live
  created : ∀ o, s.roots o ≠ none → t.roots o ≠ none
  lists : t.ownership.OwnedLists
  owners : ∀ b, (t.ownership.entries b).owner ≠ .null →
    (s.ownership.entries b).owner = (t.ownership.entries b).owner ∨
      s.roots (t.ownership.entries b).owner ≠ none
  holds : ∀ held, Holds held s → Holds (e.holds P held) t

/-- An event that leaves owners and roots alone. -/
theorem Effect.of_same (inv : s.RangesInv P) (ownership : t.ownership = s.ownership)
    (roots : t.roots = s.roots) (live : ∀ a ∈ s.tables.live, a ∈ t.tables.live)
    (holds : ∀ held r, r ≠ .null → ∀ b, e.holds P held r b = held r b) : Effect P s e t := by
  refine ⟨live, ?_, ?_, ownership ▸ inv.lists, ?_, ?_⟩
  · rw [roots]
    exact fun o root h => .inl h
  · rw [roots]
    exact fun o h => h
  · rw [ownership]
    exact fun b _ => .inl rfl
  · intro held start r known b
    rw [holds held r known b, ownership]
    exact start r known b

/-- The owners of a range of memory change for everyone but the compartment that claims or
releases it in the same way: they are not the owner. -/
theorem Effect.of_update {lo hi : Nat} {old new o : CompartmentOwner} {v : Bool}
    (update : OwnershipMap.OwnerUpdate P.unit lo hi old new s.ownership t.ownership)
    (known : o ≠ .null) (change : old = .null ∧ new = o ∧ v = true ∨
      old = o ∧ new = .null ∧ v = false) (created : s.roots o ≠ none)
    (lists : t.ownership.OwnedLists) (roots : t.roots = s.roots)
    (live : ∀ a ∈ s.tables.live, a ∈ t.tables.live)
    (holds : ∀ held r b, e.holds P held r b =
      if r = o ∧ lo ≤ b * P.unit ∧ b * P.unit < hi then v else held r b) : Effect P s e t := by
  have block : ∀ (m : OwnershipMap) b, OwnershipMap.getMonzaOwner P.unit m (b * P.unit) =
      (m.entries b).owner := by
    intro m b
    rw [OwnershipMap.getMonzaOwner, Nat.mul_div_cancel b P.unit_pos]
  have after : ∀ b, (t.ownership.entries b).owner =
      if lo ≤ b * P.unit ∧ b * P.unit < hi then new else (s.ownership.entries b).owner := by
    intro b
    rw [← block, ← block, update.after]
  refine ⟨live, ?_, ?_, lists, ?_, ?_⟩
  · rw [roots]
    exact fun o root h => .inl h
  · rw [roots]
    exact fun o h => h
  · intro b owned
    rw [after b] at owned ⊢
    split at owned
    next inside =>
      rw [if_pos inside]
      rcases change with ⟨-, rfl, -⟩ | ⟨-, rfl, -⟩
      · exact .inr created
      · exact absurd rfl owned
    next outside =>
      rw [if_neg outside]
      exact .inl rfl
  · intro held start r real b
    rw [holds, after b]
    by_cases inside : lo ≤ b * P.unit ∧ b * P.unit < hi
    · have before : (s.ownership.entries b).owner = old := by
        rw [← block]
        exact update.before _ inside.1 inside.2
      rw [if_pos inside]
      by_cases same : r = o
      · subst same
        rw [if_pos ⟨rfl, inside⟩]
        rcases change with ⟨-, rfl, rfl⟩ | ⟨-, rfl, rfl⟩
        · exact ⟨fun _ => rfl, fun _ => rfl⟩
        · exact ⟨fun no => (by cases no), fun no => absurd no.symm known⟩
      · rw [if_neg fun no => same no.1, start r real b, before]
        rcases change with ⟨rfl, rfl, -⟩ | ⟨rfl, rfl, -⟩
        · exact ⟨fun no => absurd no.symm real, fun no => absurd no.symm same⟩
        · exact ⟨fun no => absurd no.symm same, fun no => absurd no.symm real⟩
    · rw [if_neg inside, if_neg fun no => inside no.2]
      exact start r real b

/-- Creating a compartment gives it a head that no block is linked to. -/
theorem Effect.create (inv : s.RangesInv P) (known : owner ≠ .null) (new : s.roots owner = none)
    (done : s.createCompartment P owner = .ok t) : Effect P s (.create owner) t := by
  obtain ⟨root, tables, fresh, live, rfl⟩ := System.createCompartment_eq_ok done
  refine ⟨live, ?_, ?_, ?_, fun _ _ => .inl rfl, fun held start r real b => start r real b⟩
  · intro o root' h
    change Function.update s.roots owner (some root) o = some root' at h
    by_cases ho : o = owner
    · subst ho
      rw [Function.update_self] at h
      cases h
      exact .inr fresh
    · rw [Function.update_of_ne ho] at h
      exact .inl h
  · intro o h
    change Function.update s.roots owner (some root) o ≠ none
    by_cases ho : o = owner
    · subst ho
      rw [Function.update_self]
      exact Option.some_ne_none root
    · rw [Function.update_of_ne ho]
      exact h
  · refine inv.lists.newHead fun b own => ?_
    refine inv.holders b ?_ (own ▸ new)
    rw [own]
    exact known

/-- Destroying a range takes all it holds. -/
theorem Effect.deallocAll (inv : s.RangesInv P) (created : s.roots owner ≠ none)
    (done : s.deallocAll P owner = .ok t) : Effect P s (.deallocAll owner) t := by
  have stores : SetMetaentry.StoresChunks (fun _ _ (_ : Unit) metadata => metadata) P :=
    fun _ _ _ _ _ => rfl
  obtain ⟨order, u, -, mem, released, -, reclaimed⟩ := Backend.deallocAll_reclaims .release stores
    () (fun _ => ()) (inv.reclaimable created) inv.wellFormed.coherent inv.lists
  cases done.symm.trans released
  refine ⟨reclaimed.live, ?_, ?_, reclaimed.lists, ?_, ?_⟩
  · rw [reclaimed.roots]
    exact fun o root h => .inl h
  · rw [reclaimed.roots]
    exact fun o h => h
  · intro b owned
    rw [reclaimed.owners b] at owned ⊢
    split at owned
    next => exact absurd rfl owned
    next outside =>
      rw [if_neg outside]
      exact .inl rfl
  · intro held start r real b
    rw [Event.holds, reclaimed.owners b]
    by_cases same : r = owner
    · subst same
      rw [if_pos rfl]
      refine ⟨fun no => (by cases no), fun no => ?_⟩
      split at no
      next => exact absurd no.symm real
      next outside => exact absurd ((mem b).mpr no) outside
    · rw [if_neg same, start r real b]
      split
      next inside =>
        rw [(mem b).mp inside]
        exact ⟨fun no => absurd no.symm same, fun no => absurd no.symm real⟩
      next => exact Iff.rfl

theorem Step.effect (inv : s.RangesInv P) (step : e.Step P s t) : Effect P s e t := by
  obtain ⟨nodesOf, coh⟩ := inv.wellFormed.coherent
  obtain ⟨legal, done⟩ := step
  cases e with
  | create owner => exact .create inv legal.1 legal.2 done
  | alloc o size range =>
      cases range with
      | none =>
          cases done
          exact .of_same inv rfl rfl (fun _ ha => ha) fun _ _ _ _ => rfl
      | some base =>
          by_cases known : o = .null
          · subst known
            cases done
            refine .of_same inv rfl rfl (fun _ ha => ha) fun held r real b => ?_
            exact if_neg fun no => real no.1
          · have units := legal.2.toUnits
            have created := legal.1.resolve_left known
            obtain ⟨root, h⟩ := Option.ne_none_iff_exists'.mp created
            obtain ⟨owned, roots, live⟩ := System.allocRange_eq_ok coh known h units done
            have update := ((OwnershipMap.addMonzaOwner_sat P.unit_pos units.aligned
              units.alignedSize units.bound coh.links
              fun b hb => Nat.le_trans hb units.bound).of_ok owned).1
            refine .of_update update known (.inl ⟨rfl, rfl, rfl⟩) created ?_ roots live
              fun _ _ _ => rfl
            exact inv.lists.addMonzaOwner known P.unit_pos
              (Nat.lt_of_le_of_lt units.bound (by decide)) units.alignedSize owned
  | dealloc o base size =>
      by_cases known : o = .null
      · subst known
        cases done
        refine .of_same inv rfl rfl (fun _ ha => ha) fun held r real b => ?_
        exact if_neg fun no => real no.1
      · have units := legal.2
        have created := legal.1.resolve_left known
        obtain ⟨root, h⟩ := Option.ne_none_iff_exists'.mp created
        obtain ⟨owned, roots, live⟩ :=
          System.deallocRange_eq_ok coh known h (inv.apart o root h) units done
        have update := ((OwnershipMap.removeMonzaOwner_sat P.unit_pos units.aligned
          units.alignedSize units.bound coh.links).of_ok owned).1
        refine .of_update update known (.inr ⟨rfl, rfl, rfl⟩) created ?_ roots live
          fun _ _ _ => rfl
        exact inv.lists.removeMonzaOwner known P.unit_pos
          (Nat.lt_of_le_of_lt units.bound (by decide)) units.alignedSize owned
  | deallocAll owner => exact .deallocAll inv legal done
  | pageFault owner address err =>
      obtain ⟨root, h⟩ := Option.ne_none_iff_exists'.mp legal
      rw [Event.run, System.rootOf_eq h] at done
      obtain ⟨ownership, roots, live⟩ := System.pageFaultHandler_eq_ok coh h done
      exact .of_same inv ownership roots live fun _ _ _ _ => rfl

theorem Step.rangesInv (inv : s.RangesInv P) (step : e.Step P s t) : t.RangesInv P := by
  have effect := step.effect inv
  refine ⟨inv.wellFormed.step step, effect.lists, ?_, effect.live _ inv.kernel, ?_⟩
  · intro b owned
    rcases effect.owners b owned with same | created
    · rw [← same]
      exact effect.created _ (inv.holders b (same ▸ owned))
    · exact effect.created _ created
  · intro o root h
    rcases effect.roots o root h with old | fresh
    · exact inv.apart o root old
    · rintro rfl
      exact fresh inv.kernel

/-- In every history the invariant holds, and the owners are who the calls say. -/
theorem inv_of_run {s₀ : System} {events : List Event} (inv : s₀.RangesInv P)
    {held : CompartmentOwner → Nat → Bool} (start : Holds held s₀)
    (run : Run (StepIn P build) s₀ events s) :
    s.RangesInv P ∧ Holds (events.foldl (fun held e => e.holds P held) held) s := by
  induction run generalizing held with
  | nil => exact ⟨inv, start⟩
  | cons first _ ih =>
      have step : Event.Step P _ _ _ := ⟨first.1, inv.run_of_runIn first.1 first.2⟩
      exact ih (step.rangesInv inv) ((step.effect inv).holds held start)

end Event

/-- The destructor of the range of `owner` has reclaimed the blocks of `order`, its list, and
nothing else. -/
structure ReclaimsOnce {ε : Type} (P : Platform) (owner : CompartmentOwner) (defaultEntry : ε)
    (order : List Nat) (v w : Backend ε) : Prop where
  list : v.system.ownership.HasList owner order
  distinct : order.Nodup
  returned : w.returned = v.returned ++ order.map fun b => (b * P.unit, P.unit)
  owners : ∀ b, (w.system.ownership.entries b).owner =
    if b ∈ order then .null else (v.system.ownership.entries b).owner
  metadata : ∀ c, w.metadata c =
    if c * 2 ^ P.minChunkBits / P.unit ∈ order then defaultEntry else v.metadata c
  handedOut : ∀ b, w.system.handedOut b = if b ∈ order then false else v.system.handedOut b
  roots : w.system.roots = v.system.roots
  unmapped : ∀ root, v.system.roots owner = some root → ∀ a, a / P.unit ∈ order →
    entryAt P.ps w.system.tables root a = .null
  foreignTables : ∀ o root, o ≠ owner → v.system.roots o = some root → ∀ a, a < 2 ^ 48 →
    entryAt P.ps w.system.tables root a = entryAt P.ps v.system.tables root a
  foreignEntries : ∀ b, (v.system.ownership.entries b).owner ≠ .null →
    (v.system.ownership.entries b).owner ≠ owner →
    w.system.ownership.entries b = v.system.ownership.entries b
  foreignHeads : ∀ r, r ≠ owner → w.system.ownership.heads r = v.system.ownership.heads r

theorem OwnershipMap.entry_eq {m m' : OwnershipMap} {b : Nat}
    (links : m.links.SameAt m'.links (.entry b))
    (owner : (m'.entries b).owner = (m.entries b).owner) : m'.entries b = m.entries b := by
  obtain ⟨next, prev⟩ := links
  change (m'.entries b).next = (m.entries b).next at next
  change (m'.entries b).prev = (m.entries b).prev at prev
  cases h : m.entries b with
  | mk base own =>
      cases h' : m'.entries b with
      | mk base' own' =>
          rw [h, h'] at next prev owner
          cases base
          cases base'
          simp_all

theorem OwnershipMap.head_eq {m m' : OwnershipMap} {r : CompartmentOwner}
    (links : m.links.SameAt m'.links (.head r)) : m'.heads r = m.heads r := by
  obtain ⟨next, prev⟩ := links
  change (m'.heads r).next = (m.heads r).next at next
  change (m'.heads r).prev = (m.heads r).prev at prev
  cases h : m.heads r
  cases h' : m'.heads r
  simp_all

/-- The destructor of a range, in either build and after any history, completes and reclaims
exactly the blocks that the range was given and has not returned. -/
theorem destruction_reclaims_once {ε : Type} {P : Platform} {build : Build} {s₀ s : System}
    {events : List Event} {owner : CompartmentOwner} {setMetaentry : SetMetaentry ε}
    (stores : setMetaentry.StoresChunks P) (defaultEntry : ε) (metadata : Nat → ε)
    (init : s₀.Initial) (kernel : P.kernelPagetable ∈ s₀.tables.live)
    (run : Run (Event.StepIn P build) s₀ events s) (created : s.roots owner ≠ none) :
    ∃ order w,
      Backend.deallocAll P build setMetaentry defaultEntry owner ⟨s, metadata, []⟩ = .ok w ∧
      (∀ b, b ∈ order ↔ Event.heldAfter P events owner b = true) ∧
      ReclaimsOnce P owner defaultEntry order ⟨s, metadata, []⟩ w := by
  have nothing : Event.Holds (fun _ _ => false) s₀ := by
    intro r real b
    rw [init.ownership]
    exact ⟨fun no => (by cases no), fun no => absurd no.symm real⟩
  obtain ⟨inv, holds⟩ := Event.inv_of_run (init.rangesInv kernel) nothing run
  have ready := inv.reclaimable created
  obtain ⟨order, t, list, mem, -, done, reclaimed⟩ := Backend.deallocAll_reclaims build stores
    defaultEntry metadata ready inv.wellFormed.coherent inv.lists
  refine ⟨order, _, done, fun b => (mem b).trans (holds owner ready.known b).symm, ?_⟩
  constructor
  · exact list
  · exact list.nodup
  · rfl
  · exact reclaimed.owners
  · exact fun c => rfl
  · exact reclaimed.handedOut
  · exact reclaimed.roots
  · intro root h a inside
    have bound := ready.bounded _ ((mem _).mp inside)
    have := Nat.lt_div_mul_add P.unit_pos (a := a)
    have view := reclaimed.views owner root h a
    rwa [if_pos ⟨rfl, inside⟩, System.viewOf, if_pos (by omega)] at view
  · intro o root other h a ha
    have view := reclaimed.views o root h a
    rwa [if_neg fun no => other no.1, System.viewOf, System.viewOf, if_pos ha, if_pos ha] at view
  · intro b owned other
    have belongs : OwnershipMap.Belongs s.ownership.ownerList
        (s.ownership.entries b).owner (.entry b) :=
      (OwnershipMap.ownerList_eq_some owned).mpr rfl
    apply OwnershipMap.entry_eq (reclaimed.others _ other _ belongs)
    rw [reclaimed.owners b, if_neg fun inside => other ((mem b).mp inside)]
  · intro r other
    exact OwnershipMap.head_eq (reclaimed.others r other (.head r) rfl)

/-- Two blocks for one range, of which it returns one, and a block for another. -/
def halfReturned : List Event :=
  [.create ⟨1⟩, .create ⟨2⟩, .alloc ⟨1⟩ 0x8000 (some 0x40000), .alloc ⟨2⟩ 0x4000 (some 0x50000),
    .dealloc ⟨1⟩ 0x40000 0x4000]

/-- The pagemap of an allocator that stores one entry after the other. -/
def sampleSetMetaentry : SetMetaentry Bool := fun base size entry metadata c =>
  if base ≤ c * 2 ^ 14 ∧ c * 2 ^ 14 < base + size then entry else metadata c

theorem sampleSetMetaentry_storesChunks : sampleSetMetaentry.StoresChunks smallPlatform :=
  fun _ _ _ _ _ => rfl

theorem destruction_reclaims_once_half_returned : ∃ s order w,
    Run (Event.StepIn smallPlatform .debug) smallBoot halfReturned s ∧
      Backend.deallocAll smallPlatform .debug sampleSetMetaentry true ⟨1⟩
        ⟨s, fun _ => false, []⟩ = .ok w ∧
      ReclaimsOnce smallPlatform ⟨1⟩ true order ⟨s, fun _ => false, []⟩ w ∧
      17 ∈ order ∧ 16 ∉ order ∧ 20 ∉ order := by
  have done : (simulate (Event.Legal smallPlatform)
      (fun s e => (e.runIn smallPlatform .debug s).toOption) halfReturned smallBoot).map
      (fun s => (s.roots ⟨1⟩).isSome) = some true := by
    decide +kernel
  obtain ⟨s, simulated, created⟩ := Option.map_eq_some_iff.mp done
  have run : Run (Event.StepIn smallPlatform .debug) smallBoot halfReturned s :=
    (simulate_run simulated).mono fun _ _ _ step => ⟨step.1, toOption_eq_some.mp step.2⟩
  obtain ⟨order, w, destroyed, mem, once⟩ := destruction_reclaims_once
    sampleSetMetaentry_storesChunks true (fun _ => false) smallBoot_initial (by decide) run
    (Option.isSome_iff_ne_none.mp created)
  refine ⟨s, order, w, run, destroyed, once, ?_, ?_, ?_⟩
  · exact (mem 17).mpr (by decide +kernel)
  · exact (mem 16).not.mpr (by decide +kernel)
  · exact (mem 20).not.mpr (by decide +kernel)

end Monza
