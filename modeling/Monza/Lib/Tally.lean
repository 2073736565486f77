import Mathlib.Data.List.Count
import Mathlib.Data.List.Range
import Mathlib.Logic.Function.Basic

/-!
# Counting in a family of threads

The number of threads, among the first `n` of a family, whose local state meets a condition. A
step changes the local state of one thread, and with it the number by at most one.
-/

variable {α : Type*} {p : α → Bool} {f : Nat → α} {a : α} {c n : Nat}

def tally (p : α → Bool) (f : Nat → α) (n : Nat) : Nat :=
  (List.range n).countP fun c => p (f c)

namespace Tally

theorem succ (p : α → Bool) (f : Nat → α) (n : Nat) :
    tally p f (n + 1) = tally p f n + (p (f n)).toNat := by
  rw [tally, List.range_succ, List.countP_append, List.countP_singleton]
  cases p (f n) <;> rfl

theorem congr {g : Nat → α} (same : ∀ c, p (g c) = p (f c)) : tally p g n = tally p f n := by
  rw [tally, tally, funext same]

/-- A thread beyond those counted does not matter. -/
theorem update_of_le (le : n ≤ c) : tally p (Function.update f c a) n = tally p f n := by
  rw [tally, tally]
  refine List.countP_congr ?_
  intro d mem
  have ne : d ≠ c := Nat.ne_of_lt (Nat.lt_of_lt_of_le (List.mem_range.mp mem) le)
  rw [Function.update_of_ne ne]

theorem update (lt : c < n) :
    tally p (Function.update f c a) n + (p (f c)).toNat = tally p f n + (p a).toNat := by
  induction n with
  | zero => cases lt
  | succ n ih =>
      rw [succ, succ]
      by_cases last : c = n
      · subst last
        rw [update_of_le (Nat.le_refl c), Function.update_self]
        omega
      · have before := ih (by omega)
        rw [Function.update_of_ne (Ne.symm last)]
        omega

theorem update_of_same (same : p a = p (f c)) :
    tally p (Function.update f c a) n = tally p f n := by
  by_cases lt : c < n
  · have moved := update (p := p) (f := f) (a := a) lt
    rw [same] at moved
    omega
  · exact update_of_le (Nat.le_of_not_lt lt)

theorem eq_zero_iff : tally p f n = 0 ↔ ∀ c < n, p (f c) = false := by
  rw [tally, List.countP_eq_zero]
  simp

theorem lt_of_not (lt : c < n) (not : p (f c) = false) : tally p f n < n := by
  have length : (List.range n).length = n := List.length_range
  have le : tally p f n ≤ (List.range n).length := List.countP_le_length
  refine Nat.lt_of_le_of_ne (Nat.le_trans le (Nat.le_of_eq length)) ?_
  intro all
  have every := List.countP_eq_length.mp (all.trans length.symm) c (List.mem_range.mpr lt)
  rw [not] at every
  cases every

end Tally
