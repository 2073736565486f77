import Mathlib.Data.Int.Bitwise
import Mathlib.Logic.Basic

/-!
# Machine arithmetic

An operation of a program on machine integers is an exact operation, whose result is then brought
into the range of its type. `wrapping` does that as the machine does, `checked` fails for a result
out of range. A program that is written for either has both readings: with `checked` one shows
that no operation overflows, with `wrapping` what is computed. Within the ranges the two do the
same, so one proof for an `Exact` arithmetic gives both.
-/

universe v

/-- How a result of unsigned or signed type of some width is brought into its range. -/
structure Arithmetic (m : Type → Type v) where
  unsigned : Nat → Nat → m Nat
  signed : Nat → Int → m Int

namespace Arithmetic

/-- The results are taken modulo the range. -/
def wrapping : Arithmetic Id where
  unsigned w n := n % 2 ^ w
  signed w z := z.bmod (2 ^ w)

/-- Results that are out of range are errors. -/
def checked : Arithmetic Option where
  unsigned w n := if n < 2 ^ w then some n else none
  signed w z := if -(2 ^ (w - 1)) ≤ z ∧ z < 2 ^ (w - 1) then some z else none

/-- Results that are in range stay what they are. -/
structure Exact {m : Type → Type v} [Monad m] (arith : Arithmetic m) : Prop where
  unsigned : ∀ {w n}, n < 2 ^ w → arith.unsigned w n = pure n
  signed : ∀ {w z}, 0 < w → -(2 ^ (w - 1)) ≤ z → z < 2 ^ (w - 1) → arith.signed w z = pure z

/-- The same arithmetic with effects of another kind. -/
def map {m : Type → Type v} {n : Type → Type v} (f : ∀ {α : Type}, m α → n α)
    (arith : Arithmetic m) : Arithmetic n where
  unsigned w k := f (arith.unsigned w k)
  signed w z := f (arith.signed w z)

theorem Exact.map {m n : Type → Type v} [Monad m] [Monad n] {f : ∀ {α : Type}, m α → n α}
    {arith : Arithmetic m} (exact : arith.Exact)
    (pure_eq : ∀ {α : Type} (a : α), f (pure a) = pure a) : (arith.map f).Exact where
  unsigned small := (congrArg (f ·) (exact.unsigned small)).trans (pure_eq _)
  signed pos low high := (congrArg (f ·) (exact.signed pos low high)).trans (pure_eq _)

theorem wrapping_exact : wrapping.Exact where
  unsigned small := Nat.mod_eq_of_lt small
  signed {w z} pos low high := by
    have half : (2 : Int) ^ w = 2 * 2 ^ (w - 1) := by
      rw [← Int.pow_succ', Nat.sub_one_add_one (Nat.ne_of_gt pos)]
    apply Int.bmod_eq_of_le
    · push_cast
      omega
    · push_cast
      omega

theorem checked_exact : checked.Exact where
  unsigned small := if_pos small
  signed _ low high := if_pos ⟨low, high⟩

end Arithmetic
