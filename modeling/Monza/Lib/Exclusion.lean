import Mathlib.Logic.Function.Basic

/-!
# Mutual exclusion between threads

The local states of a family of threads, and conditions that at most one of them meets at
a time. A step changes the local state of one thread.
-/

variable {κ α : Type*} {P : α → Prop} {f : κ → α} {a : α} {c d : κ}

/-- At most one thread is in a state that meets `P`. -/
def Exclusive (P : α → Prop) (f : κ → α) : Prop := ∀ c d, P (f c) → P (f d) → c = d

namespace Exclusive

theorem not_of_ne (h : Exclusive P f) (hc : P (f c)) (ne : d ≠ c) : ¬ P (f d) :=
  fun hd => ne (h d c hd hc)

/-- A thread may come to meet the condition if it did before or nobody does. -/
theorem update [DecidableEq κ] (h : Exclusive P f)
    (enter : P a → P (f c) ∨ ∀ d, d ≠ c → ¬ P (f d)) :
    Exclusive P (Function.update f c a) := by
  have others : P a → ∀ d, d ≠ c → ¬ P (f d) := fun ha =>
    (enter ha).elim (fun hc _ ne => h.not_of_ne hc ne) id
  intro d e hd he
  by_cases hdc : d = c <;> by_cases hec : e = c
  · rw [hdc, hec]
  · rw [hdc, Function.update_self] at hd
    rw [Function.update_of_ne hec] at he
    exact absurd he (others hd e hec)
  · rw [hec, Function.update_self] at he
    rw [Function.update_of_ne hdc] at hd
    exact absurd hd (others he d hdc)
  · rw [Function.update_of_ne hdc] at hd
    rw [Function.update_of_ne hec] at he
    exact h d e hd he

end Exclusive
