import Monza.Pagetable.Translation

/-!
# Tables from the bump allocator

The allocator that hands out the page above all nodes in use refuses only close to
`2 ^ 52`. A call over a range allocates at most one node per level and byte, so calls
over ranges of moderate size never fail.
-/

namespace Monza

open Outcome Radix

/-- The last node in use. -/
def topNode (s : PagetableStore) : Nat := s.live.foldr max 0

variable {ps : PageSize} {isKernel : Bool} {s t : PagetableStore}
variable {level root base size : Nat} {perm : PagetablePermission} {type : PagetableType}

@[simp] theorem topNode_write (s : PagetableStore) (a i : Nat) (e : PagetableEntry) :
    topNode (s.write a i e) = topNode s := rfl

theorem topNode_alloc (s : PagetableStore) (a : Nat) (e : PagetableEntry) :
    topNode (s.alloc a e) = max a (topNode s) := rfl

/-- At most `n` nodes more, and no refusal if there is room for them. -/
def Spends (n : Nat) (f : PagetableStore → Result PagetableStore) : Prop :=
  ∀ s, topNode s + 4096 * n < 2 ^ 52 →
    Sat (f s) (fun t => topNode t ≤ topNode s + 4096 * n) (· ≠ .outOfMemory)

theorem allocPagetableNode_bump (room : topNode s + 4096 < 2 ^ 52) :
    Sat (allocPagetableNode .bump isKernel s)
      (fun r => topNode r.2 ≤ topNode s + 4096) (· ≠ .outOfMemory) := by
  have node : NodeAllocator.bump.alloc isKernel s.live =
      some ((topNode s / 4096 + 1) * 4096) := by
    simp only [NodeAllocator.bump, ← topNode.eq_1]
    exact if_pos (by omega)
  rw [allocPagetableNode, node]
  show topNode (s.alloc _ _) ≤ _
  rw [topNode_alloc]
  omega

theorem nextRootOrAlloc_bump {index : Nat} (room : topNode s + 4096 < 2 ^ 52) :
    Sat (nextRootOrAlloc .bump isKernel root index type s)
      (fun r => topNode r.2 ≤ topNode s + 4096) (· ≠ .outOfMemory) := by
  rw [nextRootOrAlloc]
  split
  next => exact (allocPagetableNode_bump room).bind fun r h => h
  next => exact Nat.le_add_right _ _

theorem addLeaves_bump : Spends 0 (addLeaves isKernel level root base size perm type) := by
  intro s _
  refine (loop_sat (fun _ t => topNode t ≤ topNode s + 4096 * 0) (by decide) ?_
    (Nat.le_add_right _ _)).mono_post ?_
  · intro a t h _
    exact h
  · rintro t ⟨_, h, _⟩
    exact h

/-- One node per level and byte of the range is more than enough. -/
theorem addToPagetable_bump (low : level ≤ pml4Level) (bound : base + size ≤ 2 ^ 48) :
    Spends (level * size) (addToPagetable ps .bump isKernel level root base size perm type) := by
  induction level generalizing root base size type with
  | zero =>
      rw [Nat.zero_mul]
      exact addLeaves_bump
  | succ level ih =>
      intro s room
      rw [addToPagetable]
      split
      next =>
        refine (addLeaves_bump s ?_).mono_post fun t h => ?_
        · omega
        · omega
      next =>
        have stop : u64 (base + size) = base + size := u64_of_lt (by omega)
        -- what has been spent is bounded by the part of the range that is behind
        refine (loop_sat (fun a t => base ≤ a ∧ topNode t ≤ topNode s +
          4096 * ((level + 1) * (min a (base + size) - base))) (by decide) ?_
          ⟨Nat.le_refl _, Nat.le_add_right _ _⟩).mono_post ?_
        · rintro a t ⟨start, spent⟩ less
          have less := of_decide_eq_true less
          rw [stop] at less
          have coverage : pagetableEntryCoverage (level + 1) ≤ 2 ^ 39 :=
            Nat.pow_le_pow_right (by decide) (by
              rw [pagetableEntryCoverageBits]
              rw [pml4Level] at low
              omega)
          have next := lt_pagetableNextEntryBase
            (pagetableNextEntryBase_eq a (level + 1) (by omega))
          have part := sub64_min_nextEntryBase bound less next
          rw [stop] at part ⊢
          generalize sub64 (min (base + size) (pagetableNextEntryBase a (level + 1))) a = n
            at part ⊢
          rw [Nat.min_eq_left (Nat.le_of_lt less)] at spent
          have split : (level + 1) * (a - base + n) =
              (level + 1) * (a - base) + (level * n + n) := by
            ring
          have whole := Nat.mul_le_mul_left (level + 1) (show a - base + n ≤ size by omega)
          refine (nextRootOrAlloc_bump (by omega)).bind ?_
          rintro ⟨nextRoot, u⟩ allocated
          refine ((ih (by omega) (by omega)) u ?_).mono_post fun v below => ?_
          · simp only at allocated
            omega
          · refine ⟨by omega, ?_⟩
            rw [Nat.min_comm, ← part, show a + n - base = a - base + n by omega, split]
            simp only at allocated
            omega
        · rintro t ⟨a, ⟨-, spent⟩, -⟩
          refine Nat.le_trans spent ?_
          have part : min a (base + size) - base ≤ size := by omega
          have := Nat.mul_le_mul_left (level + 1) part
          omega

/-- The sizes of the calls together. -/
def totalSize (calls : List (Nat × Nat × PagetablePermission)) : Nat :=
  (calls.map fun c => c.2.1).sum

/-- Calls of whole pages below `2 ^ 48` succeed, as long as they are not too large together. -/
theorem addCalls_bump {calls : List (Nat × Nat × PagetablePermission)} {N : Set Nat}
    (table : TableAt ps {true} s root N)
    (aligned : ∀ c ∈ calls, c.1 % ps.bytes = 0 ∧ c.2.1 % ps.bytes = 0)
    (bound : ∀ c ∈ calls, c.1 + c.2.1 ≤ 2 ^ 48)
    (room : topNode s + 4096 * (pml4Level * totalSize calls) < 2 ^ 52) :
    ∃ t, addCalls ps .bump root calls s = .ok t := by
  induction calls generalizing s N with
  | nil => exact ⟨s, rfl⟩
  | cons c calls ih =>
      rw [List.forall_mem_cons] at aligned bound
      have sum : totalSize (c :: calls) = c.2.1 + totalSize calls := List.sum_cons
      rw [sum, Nat.mul_add] at room
      obtain ⟨u, first, ⟨M, update⟩, below⟩ :=
        (table.add (Set.mem_singleton true) aligned.1.1 aligned.1.2 bound.1).exists_ok
          (addToPagetable_bump (Nat.le_refl pml4Level) bound.1 s (by omega)) fun f h no => no h.1
      obtain ⟨t, rest⟩ := ih update.table aligned.2 bound.2 (by omega)
      refine ⟨t, ?_⟩
      rw [addCalls, List.foldlM_cons]
      refine bind_eq_ok.mpr ⟨u, ?_, rest⟩
      rw [addToKernelPagetable, if_neg (by omega)]
      exact first

theorem kernelRun_bump {calls : List (Nat × Nat × PagetablePermission)}
    (aligned : ∀ c ∈ calls, c.1 % ps.bytes = 0 ∧ c.2.1 % ps.bytes = 0)
    (bound : ∀ c ∈ calls, c.1 + c.2.1 ≤ 2 ^ 48)
    (room : topNode s + 4096 + 4096 * (pml4Level * totalSize calls) < 2 ^ 52) :
    ∃ root t, kernelRun ps .bump calls s = .ok (root, t) := by
  obtain ⟨⟨root, u⟩, alloc, ⟨table, -⟩, below⟩ :=
    (allocPagetableNode_sat (s := s) ps {true}).exists_ok (allocPagetableNode_bump (by omega))
      fun f h no => no h.1
  simp only at below table
  obtain ⟨t, run⟩ := addCalls_bump table aligned bound (by omega)
  refine ⟨root, t, ?_⟩
  rw [kernelRun_eq]
  exact bind_eq_ok.mpr ⟨_, alloc, bind_eq_ok.mpr ⟨t, run, rfl⟩⟩

end Monza
