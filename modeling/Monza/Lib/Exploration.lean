import Mathlib.Data.Finset.Card
import Mathlib.Data.Fintype.Order
import Mathlib.Data.Nat.Find
import Mathlib.Logic.Relation

/-!
# Explorations by recursion

A recursion that follows a relation without marking where it is ends exactly if the
relation is well-founded below its start. If only finitely many points can be reached, it
is so exactly if none of them lies on a cycle.

A recursion with one successor per point is an iteration. It leaves a finite set without
coming to a point twice, so within as many steps as the set has points.
-/

namespace Exploration

open Relation

variable {α : Type*} {r : α → α → Prop} {a b : α}

/-- Nothing that is reached from `a` lies on a cycle. -/
def Acyclic (r : α → α → Prop) (a : α) : Prop := ∀ b, ReflTransGen r a b → ¬ TransGen r b b

theorem acyclic_of_acc (acc : Acc (flip r) a) : Acyclic r a := by
  induction acc with
  | intro a _ ih =>
      intro b reach cycle
      rcases ReflTransGen.cases_head reach with rfl | ⟨c, first, rest⟩
      · -- a cycle through the start is one through its successor
        obtain ⟨c, first, rest⟩ := TransGen.head'_iff.mp cycle
        exact ih c first c .refl (TransGen.tail' rest first)
      · exact ih c first b rest cycle

theorem acc_of_acyclic (finite : {b | ReflTransGen r a b}.Finite) (acyclic : Acyclic r a) :
    Acc (flip r) a := by
  let inner (x y : {b // ReflTransGen r a b}) : Prop := r y.1 x.1
  have : Finite {b // ReflTransGen r a b} := finite
  have lift : ∀ x y, TransGen inner x y → TransGen r y.1 x.1 := by
    intro x y path
    induction path with
    | single step => exact .single step
    | tail _ step ih => exact .head step ih
  have : Std.Irrefl (TransGen inner) := ⟨fun x cycle => acyclic x.1 x.2 (lift x x cycle)⟩
  have wf : WellFounded (TransGen inner) := Finite.wellFounded_of_trans_of_irrefl _
  have all : ∀ x : {b // ReflTransGen r a b}, Acc (flip r) x.1 := by
    intro x
    induction x using wf.induction with
    | _ x ih => exact .intro _ fun b step => ih ⟨b, x.2.tail step⟩ (.single step)
  exact all ⟨a, .refl⟩

/-- Up to the first iterate outside, no point is met twice. -/
theorem iterate_ne {f : α → α} {s : Set α} {n i j : ℕ} (outside : f^[n] a ∉ s)
    (inside : ∀ m < n, f^[m] a ∈ s) (less : i < j) (le : j ≤ n) : f^[i] a ≠ f^[j] a := by
  intro same
  -- the shortcut from `i` would lead outside too early
  have early : f^[n - j + i] a = f^[n] a := by
    rw [Function.iterate_add_apply, same, ← Function.iterate_add_apply, Nat.sub_add_cancel le]
  exact outside (early ▸ inside (n - j + i) (by omega))

theorem exists_iterate_notMem {f : α → α} {s : Finset α} {n : ℕ} (outside : f^[n] a ∉ s) :
    ∃ m ≤ s.card, f^[m] a ∉ s := by
  classical
  have leaves : ∃ n, f^[n] a ∉ s := ⟨n, outside⟩
  have inside : ∀ m < Nat.find leaves, f^[m] a ∈ s := by
    intro m hm
    exact not_not.mp (Nat.find_min leaves hm)
  refine ⟨Nat.find leaves, ?_, Nat.find_spec leaves⟩
  have distinct : Set.InjOn (f^[·] a) (Finset.range (Nat.find leaves)) := by
    intro i hi j hj same
    have hi := Finset.mem_range.mp hi
    have hj := Finset.mem_range.mp hj
    rcases Nat.lt_trichotomy i j with less | same | less
    · exact absurd same (iterate_ne (Nat.find_spec leaves) inside less (Nat.le_of_lt hj))
    · exact same
    · exact absurd same.symm (iterate_ne (Nat.find_spec leaves) inside less (Nat.le_of_lt hi))
  rw [← Finset.card_range (Nat.find leaves)]
  apply Finset.card_le_card_of_injOn _ _ distinct
  intro i hi
  exact inside i (Finset.mem_range.mp hi)

end Exploration
