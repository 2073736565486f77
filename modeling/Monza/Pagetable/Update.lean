import Monza.Pagetable.Shape

/-!
# Range updates of a page table

Both `add_to_pagetable` and `remove_from_pagetable` set the leaves of an address
range, the former to mappings and the latter to zero. `RangeUpdate` says so for
a node of any depth, over the addresses that share the node. Range updates
compose, which turns the loops of the source into one rule: a loop whose body
updates the part of one entry updates the whole range.

The alignment step `align_up(addr + 1)` visits each entry the range touches
once. It starts in the middle of the first entry and is cut short in the last.
-/

namespace Monza

open Outcome Radix

section Arithmetic

variable {a b level : Nat}

theorem pagetableEntryCoverage_pos (level : Nat) : 0 < pagetableEntryCoverage level :=
  Nat.two_pow_pos _

theorem pagetableEntryCoverage_succ (level : Nat) :
    pagetableEntryCoverage (level + 1) = pagetableEntryCoverage level * 512 := by
  rw [pagetableEntryCoverage, pagetableEntryCoverage, pagetableEntryCoverageBits,
    pagetableEntryCoverageBits, Nat.mul_succ, ← Nat.add_assoc, Nat.pow_add _ _ 9]

theorem pagetableEntryCoverage_lowest (ps : PageSize) :
    pagetableEntryCoverage ps.lowestLevel = ps.bytes := by
  cases ps <;> rfl

theorem pagetableEntryCoverage_mod (ps : PageSize) (d : Nat) :
    pagetableEntryCoverage (ps.lowestLevel + d) % ps.bytes = 0 := by
  induction d with
  | zero =>
      rw [Nat.add_zero, pagetableEntryCoverage_lowest, Nat.mod_self]
  | succ d ih =>
      rw [← Nat.add_assoc, pagetableEntryCoverage_succ, Nat.mul_mod, ih, Nat.zero_mul,
        Nat.zero_mod]

theorem pagetableIndex_eq (a level : Nat) :
    pagetableIndex a level = a / pagetableEntryCoverage level % 512 := by
  rw [pagetableIndex, Nat.shiftRight_eq_div_pow]
  exact Nat.and_two_pow_sub_one_eq_mod _ 9

/-- Under one node, equal slots mean equal entries. -/
theorem pagetableIndex_eq_iff
    (h : a / pagetableEntryCoverage (level + 1) = b / pagetableEntryCoverage (level + 1)) :
    pagetableIndex a level = pagetableIndex b level ↔
      a / pagetableEntryCoverage level = b / pagetableEntryCoverage level := by
  rw [pagetableEntryCoverage_succ, ← Nat.div_div_eq_div_mul, ← Nat.div_div_eq_div_mul] at h
  rw [pagetableIndex_eq, pagetableIndex_eq]
  omega

theorem pagetableNextEntryBase_eq (a level : Nat) (h : a + pagetableEntryCoverage level < 2 ^ 64) :
    pagetableNextEntryBase a level =
      (a / pagetableEntryCoverage level + 1) * pagetableEntryCoverage level := by
  have hpos := pagetableEntryCoverage_pos level
  have sum : a + 1 + (pagetableEntryCoverage level - 1) = a + pagetableEntryCoverage level := by
    omega
  rw [pagetableNextEntryBase, alignUp, u64_of_lt (n := a + 1) (by omega), u64_of_lt (by omega), sum,
    Nat.add_div_right a hpos]

section NextEntry

variable (next : pagetableNextEntryBase a level =
  (a / pagetableEntryCoverage level + 1) * pagetableEntryCoverage level)

include next

theorem lt_pagetableNextEntryBase : a < pagetableNextEntryBase a level := by
  rw [next, Nat.add_mul, Nat.one_mul]
  exact Nat.lt_div_mul_add (pagetableEntryCoverage_pos level)

theorem pagetableNextEntryBase_mod {n : Nat} (h : pagetableEntryCoverage level % n = 0) :
    pagetableNextEntryBase a level % n = 0 := by
  rw [next, Nat.mul_mod, h, Nat.mul_zero, Nat.zero_mod]

end NextEntry

end Arithmetic

/-- The node of depth `d` below `root` now holds `v` on `[lo, hi)` and what it
held before elsewhere, for all addresses that select this node. An empty range
changes nothing at all. -/
structure RangeUpdate (ps : PageSize) (K : Set Bool) (d root lo hi : Nat)
    (v : Nat → PagetableEntry) (N : Set Nat) (s t : PagetableStore) (M : Set Nat) : Prop where
  tree : Tree (tableCoding K) t.nodes d root M
  grown : Grown s t N M
  view : ∀ a, (lo < hi → a / pagetableEntryCoverage (ps.lowestLevel + d + 1) =
      lo / pagetableEntryCoverage (ps.lowestLevel + d + 1)) →
    lookup (tableCoding K) t.nodes (addressPath ps a) d root =
      if lo ≤ a ∧ a < hi then v a
      else lookup (tableCoding K) s.nodes (addressPath ps a) d root

variable {ps : PageSize} {K : Set Bool} {d root : Nat} {v : Nat → PagetableEntry}
variable {s t u : PagetableStore} {N M L : Set Nat}

namespace RangeUpdate

variable {lo mid hi : Nat}

theorem empty (tree : Tree (tableCoding K) s.nodes d root N)
    (inUse : ∀ a ∈ N, a ∈ s.live) (h : hi ≤ lo) :
    RangeUpdate ps K d root lo hi v N s s N := by
  refine ⟨tree, Grown.refl inUse, fun a _ => ?_⟩
  rw [if_neg (by omega)]

theorem append (first : RangeUpdate ps K d root lo mid v N s t M)
    (second : RangeUpdate ps K d root mid hi v M t u L)
    (hlo : lo ≤ mid) (hhi : mid ≤ hi)
    (block : lo / pagetableEntryCoverage (ps.lowestLevel + d + 1) =
      mid / pagetableEntryCoverage (ps.lowestLevel + d + 1)) :
    RangeUpdate ps K d root lo hi v N s u L := by
  refine ⟨second.tree, first.grown.trans second.grown, fun a ha => ?_⟩
  rw [second.view a (fun h => (ha (by omega)).trans block), first.view a (fun h => ha (by omega))]
  by_cases h₁ : mid ≤ a ∧ a < hi
  · rw [if_pos h₁, if_pos (by omega)]
  · rw [if_neg h₁]
    by_cases h₂ : lo ≤ a ∧ a < mid
    · rw [if_pos h₂, if_pos (by omega)]
    · rw [if_neg h₂, if_neg (by omega)]

end RangeUpdate

/-- A loop over the entries of one node. The body is verified for the part of
the range that lies in one entry. -/
theorem loop_rangeUpdate {E : Fault → Prop} {base size : Nat}
    {body : Nat → PagetableStore → Result PagetableStore}
    (tree : Tree (tableCoding K) s.nodes d root N) (inUse : ∀ a ∈ N, a ∈ s.live)
    (aligned : base % ps.bytes = 0) (bound : base + size ≤ 2 ^ 48) (level : ps.lowestLevel + d ≤ 3)
    (block : base + size ≤ (base / pagetableEntryCoverage (ps.lowestLevel + d + 1) + 1) *
      pagetableEntryCoverage (ps.lowestLevel + d + 1))
    (step : ∀ addr s' N', Tree (tableCoding K) s'.nodes d root N' →
      (∀ a ∈ N', a ∈ s'.live) → addr % ps.bytes = 0 → addr < base + size →
      pagetableNextEntryBase addr (ps.lowestLevel + d) =
        (addr / pagetableEntryCoverage (ps.lowestLevel + d) + 1) *
          pagetableEntryCoverage (ps.lowestLevel + d) →
      Sat (body addr s') (fun t => ∃ M', RangeUpdate ps K d root addr
        (min (base + size) (pagetableNextEntryBase addr (ps.lowestLevel + d))) v N' s' t M') E) :
    Sat (loop .diverge (fun addr => decide (addr < u64 (base + size)))
        (pagetableNextEntryBase · (ps.lowestLevel + d)) body entryLoopBudget base s)
      (fun t => ∃ M, RangeUpdate ps K d root base (base + size) v N s t M) E := by
  have hpos := pagetableEntryCoverage_pos (ps.lowestLevel + d)
  have hcover : pagetableEntryCoverage (ps.lowestLevel + d) ≤ 2 ^ 39 :=
    Nat.pow_le_pow_right (by decide) (by rw [pagetableEntryCoverageBits]; omega)
  have hend : u64 (base + size) = base + size := u64_of_lt (by omega)
  rw [hend]
  refine (loop_total (fun addr t => base ≤ addr ∧ addr % ps.bytes = 0 ∧
    ∃ M, RangeUpdate ps K d root base (min addr (base + size)) v N s t M)
    (fun addr => base + size - addr) ?_
    ⟨Nat.le_refl _, aligned, N, RangeUpdate.empty tree inUse (Nat.min_le_left _ _)⟩
    (by unfold entryLoopBudget; omega)).mono_post ?_
  · rintro addr t ⟨hbase, halign, M, done⟩ hcond
    have hlt : addr < base + size := of_decide_eq_true hcond
    have hnext := pagetableNextEntryBase_eq addr (ps.lowestLevel + d) (by omega)
    have hgrow := lt_pagetableNextEntryBase hnext
    refine ⟨by omega, ?_⟩
    refine (step addr t M done.tree done.grown.owned halign hlt hnext).mono_post ?_
    rintro w ⟨M', part⟩
    refine ⟨by omega, pagetableNextEntryBase_mod hnext (pagetableEntryCoverage_mod ps d), M', ?_⟩
    · rw [Nat.min_eq_left (by omega)] at done
      rw [Nat.min_comm]
      refine done.append part hbase (by omega) ?_
      refine ((div_eq_iff_between (pagetableEntryCoverage_pos _)).mpr ⟨?_, by omega⟩).symm
      exact Nat.le_trans (Nat.div_mul_le_self _ _) hbase
  · rintro t ⟨addr, ⟨hbase, -, M, done⟩, hcond⟩
    have hge : base + size ≤ addr := by
      have := of_decide_eq_false hcond
      omega
    rw [Nat.min_eq_right hge] at done
    exact ⟨M, done⟩

/-- Writing one leaf updates exactly its page. -/
theorem write_rangeUpdate {addr hi : Nat} {e : PagetableEntry}
    (tree : Tree (tableCoding K) s.nodes 0 root N) (inUse : ∀ a ∈ N, a ∈ s.live)
    (aligned : addr % ps.bytes = 0) (page : hi = addr + ps.bytes)
    (value : ∀ a, a / ps.bytes = addr / ps.bytes → v a = e) :
    RangeUpdate ps K 0 root addr hi v N s
      (s.write root (pagetableIndex addr ps.lowestLevel) e) {root} := by
  have hN : N = {root} := tree
  subst hN
  obtain ⟨tree', grown⟩ := Tree.write_leaf (c := tableCoding K)
    (pagetableIndex addr ps.lowestLevel) e (inUse root rfl)
  refine ⟨tree', grown, fun a ha => ?_⟩
  have hslot := pagetableIndex_eq_iff (ha (by have := ps.bytes_pos; omega))
  rw [pagetableEntryCoverage_lowest] at hslot
  have hin : a / ps.bytes = addr / ps.bytes ↔ addr ≤ a ∧ a < hi := by
    rw [div_eq_iff_of_mod ps.bytes_pos aligned, page]
  change (s.write root (pagetableIndex addr ps.lowestLevel) e).nodes root
    (pagetableIndex a ps.lowestLevel) = _
  by_cases hi' : addr ≤ a ∧ a < hi
  · rw [if_pos hi', hslot.mpr (hin.mpr hi'), Store.write_self]
    exact (value a (hin.mpr hi')).symm
  · rw [if_neg hi', Store.write_slot_ne]
    · rfl
    · intro heq
      exact hi' (hin.mp (hslot.mp heq))

/-- An update of the node below an entry, restricted to that entry, is an update
of the node above. -/
theorem descent_rangeUpdate {addr hi r : Nat} (nonempty : addr < hi)
    (descent : Descent K d root (pagetableIndex addr (ps.lowestLevel + d + 1)) r s t)
    (tree : Tree (tableCoding K) t.nodes (d + 1) root M) (grown : Grown s t N M)
    (view : ∀ a, (addr < hi → a / pagetableEntryCoverage (ps.lowestLevel + d + 1) =
        addr / pagetableEntryCoverage (ps.lowestLevel + d + 1)) →
      lookup (tableCoding K) t.nodes (addressPath ps a) d r =
        if addr ≤ a ∧ a < hi then v a
        else lookup (tableCoding K) s.nodes (addressPath ps a) d r)
    (entry : hi ≤ (addr / pagetableEntryCoverage (ps.lowestLevel + d + 1) + 1) *
      pagetableEntryCoverage (ps.lowestLevel + d + 1)) :
    RangeUpdate ps K (d + 1) root addr hi v N s t M := by
  refine ⟨tree, grown, fun a ha => ?_⟩
  have hslot : addressPath ps a (d + 1) = pagetableIndex addr (ps.lowestLevel + d + 1) ↔ _ :=
    pagetableIndex_eq_iff (ha nonempty)
  by_cases hp : addressPath ps a (d + 1) = pagetableIndex addr (ps.lowestLevel + d + 1)
  · rw [descent.after _ hp, descent.before _ hp]
    exact view a (fun _ => hslot.mp hp)
  · rw [descent.elsewhere _ hp, if_neg]
    rintro ⟨hlo, hhi⟩
    refine hp (hslot.mpr ((div_eq_iff_between (pagetableEntryCoverage_pos _)).mpr
      ⟨Nat.le_trans (Nat.div_mul_le_self _ _) hlo, Nat.lt_of_lt_of_le hhi entry⟩))

end Monza
