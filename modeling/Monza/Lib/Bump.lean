import Monza.Lib.Transition
import Mathlib.Order.Basic
import Mathlib.Data.List.Basic

/-!
# Bump allocation

A cursor that only grows, and blocks that are taken between its old and its new
position. Over a whole run the blocks are then in order, so no two of them overlap
and all lie between the first and the last position of the cursor.
-/

namespace Bump

variable {β : Type*} [Preorder β]

/-- Blocks, given by start and end, one behind the other between two positions. -/
def Between (lo hi : β) : List (β × β) → Prop
  | [] => lo ≤ hi
  | b :: bs => lo ≤ b.1 ∧ b.1 ≤ b.2 ∧ Between b.2 hi bs

namespace Between

variable {lo mid hi : β} {bs cs : List (β × β)}

theorem le (h : Between lo hi bs) : lo ≤ hi := by
  induction bs generalizing lo with
  | nil => exact h
  | cons b bs ih => exact h.1.trans (h.2.1.trans (ih h.2.2))

theorem of_le (le : lo ≤ mid) (h : Between mid hi bs) : Between lo hi bs := by
  cases bs with
  | nil => exact le.trans h
  | cons b bs => exact ⟨le.trans h.1, h.2⟩

theorem append (first : Between lo mid bs) (rest : Between mid hi cs) :
    Between lo hi (bs ++ cs) := by
  induction bs generalizing lo with
  | nil => exact rest.of_le first
  | cons b bs ih => exact ⟨first.1, first.2.1, ih first.2.2⟩

theorem of_mem (h : Between lo hi bs) {b : β × β} (mem : b ∈ bs) :
    lo ≤ b.1 ∧ b.1 ≤ b.2 ∧ b.2 ≤ hi := by
  induction bs generalizing lo with
  | nil => cases mem
  | cons c bs ih =>
      rcases List.mem_cons.mp mem with rfl | mem
      · exact ⟨h.1, h.2.1, h.2.2.le⟩
      · obtain ⟨start, rest⟩ := ih h.2.2 mem
        exact ⟨(h.1.trans h.2.1).trans start, rest⟩

/-- No block overlaps another. -/
theorem pairwise (h : Between lo hi bs) : bs.Pairwise fun a b => a.2 ≤ b.1 := by
  induction bs generalizing lo with
  | nil => exact List.Pairwise.nil
  | cons c bs ih => exact List.pairwise_cons.mpr ⟨fun b mem => (h.2.2.of_mem mem).1, ih h.2.2⟩

end Between

/-- What one step takes lies between the positions before and after it, and so does what a run
takes. -/
theorem between_of_run {σ α : Type*} {step : σ → α → σ → Prop} (Inv : σ → Prop) (cursor : σ → β)
    (blocks : α → List (β × β)) (keep : ∀ s a t, Inv s → step s a t → Inv t)
    (advance : ∀ s a t, Inv s → step s a t → Between (cursor s) (cursor t) (blocks a))
    {s t : σ} {as : List α} (run : Transition.Run step s as t) (start : Inv s) :
    Between (cursor s) (cursor t) (as.flatMap blocks) := by
  induction run with
  | nil s => exact le_refl (cursor s)
  | cons first _ ih =>
      exact (advance _ _ _ start first).append (ih (keep _ _ _ start first))

end Bump
