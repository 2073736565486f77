import Mathlib.Data.Nat.Digits.Lemmas
import Monza.Lib.Outcome

/-!
# Numerals

The numeral of a number as bytes, most significant digit first, and the number of a numeral. Digits
above nine are small letters, so the base is at most 36.

A loop that divides by the base until nothing is left goes over the digits, last digit first.
-/

namespace Numeral

/-- The character of a digit. -/
def symbol (d : Nat) : BitVec 8 :=
  if d < 10 then BitVec.ofNat 8 (0x30 + d) else BitVec.ofNat 8 (0x61 + d - 10)

/-- The digit of a character. -/
def digit? (c : BitVec 8) : Option Nat :=
  if 0x30 ≤ c.toNat ∧ c.toNat < 0x3a then some (c.toNat - 0x30)
  else if 0x61 ≤ c.toNat ∧ c.toNat < 0x7b then some (c.toNat - 0x61 + 10)
  else none

/-- The numeral without leading zeros. -/
def text (base n : Nat) : List (BitVec 8) :=
  if n = 0 then [symbol 0] else ((Nat.digits base n).map symbol).reverse

/-- Read one more character. -/
def read (base n : Nat) (c : BitVec 8) : Option Nat :=
  (digit? c).bind fun d => if d < base then some (n * base + d) else none

def parse (base : Nat) (t : List (BitVec 8)) : Option Nat :=
  if t = [] then none else t.foldlM (read base) 0

/-- The text is read as the number and has no zero in front. -/
structure Canonical (base n : Nat) (t : List (BitVec 8)) : Prop where
  parse_eq : parse base t = some n
  no_leading_zero : 1 < t.length → t.head? ≠ some (symbol 0)

variable {base n k : Nat}

theorem digit?_symbol : ∀ d < 36, digit? (symbol d) = some d := by
  decide

theorem eq_of_symbol_eq {d e : Nat} (d_lt : d < 36) (e_lt : e < 36) (same : symbol d = symbol e) :
    d = e := by
  have digits := digit?_symbol d d_lt
  rw [same, digit?_symbol e e_lt] at digits
  exact (Option.some.inj digits).symm

theorem read_symbol {d : Nat} (le : base ≤ 36) (lt : d < base) :
    read base n (symbol d) = some (n * base + d) := by
  rw [read, digit?_symbol d (Nat.lt_of_lt_of_le lt le), Option.bind_some, if_pos lt]

/-- Reading digits gives the number they stand for. -/
theorem foldlM_read_digits (le : base ≤ 36) : ∀ digits : List Nat, (∀ d ∈ digits, d < base) →
    (digits.map symbol).reverse.foldlM (read base) 0 = some (Nat.ofDigits base digits)
  | [], _ => rfl
  | d :: digits, small => by
      have rest := foldlM_read_digits le digits fun e mem => small e (List.mem_cons_of_mem d mem)
      rw [List.map_cons, List.reverse_cons, List.foldlM_append, rest]
      have last := read_symbol (n := Nat.ofDigits base digits) le (small d List.mem_cons_self)
      simp only [Option.bind_eq_bind, Option.bind_some, List.foldlM_cons, List.foldlM_nil, last,
        Option.pure_def, Nat.ofDigits_cons]
      rw [Nat.add_comm, Nat.mul_comm]

theorem text_zero : text base 0 = [symbol 0] := if_pos rfl

theorem text_of_ne_zero (pos : n ≠ 0) :
    text base n = ((Nat.digits base n).map symbol).reverse := if_neg pos

theorem parse_text (one : 1 < base) (le : base ≤ 36) : parse base (text base n) = some n := by
  by_cases zero : n = 0
  · subst zero
    rw [text_zero, parse, if_neg (List.cons_ne_nil _ _), List.foldlM_cons,
      read_symbol le (Nat.lt_trans Nat.zero_lt_one one)]
    simp
  · rw [text_of_ne_zero zero, parse, if_neg,
      foldlM_read_digits le _ fun d => Nat.digits_lt_base one, Nat.ofDigits_digits]
    simpa using Nat.digits_ne_nil_iff_ne_zero.mpr zero

theorem head?_text (one : 1 < base) (le : base ≤ 36) (pos : n ≠ 0) :
    (text base n).head? ≠ some (symbol 0) := by
  have nonempty : Nat.digits base n ≠ [] := Nat.digits_ne_nil_iff_ne_zero.mpr pos
  rw [text_of_ne_zero pos, List.head?_reverse, List.getLast?_map,
    List.getLast?_eq_some_getLast nonempty, Option.map_some]
  intro same
  have small : (Nat.digits base n).getLast nonempty < base :=
    Nat.digits_lt_base one (List.getLast_mem nonempty)
  exact Nat.getLast_digit_ne_zero base pos
    (eq_of_symbol_eq (by omega) (by decide) (Option.some.inj same))

/-- The numeral of a number is canonical. -/
theorem canonical_text (one : 1 < base) (le : base ≤ 36) (n : Nat) :
    Canonical base n (text base n) where
  parse_eq := parse_text one le
  no_leading_zero long := by
    by_cases zero : n = 0
    · subst zero
      exact absurd long (by simp [text_zero])
    · exact head?_text one le zero

theorem Canonical.ne_nil {t : List (BitVec 8)} (canonical : Canonical base n t) : t ≠ [] := by
  rintro rfl
  exact absurd canonical.parse_eq (by simp [parse])

/-- A numeral stands for one number. -/
theorem Canonical.unique {t : List (BitVec 8)} {m : Nat} (canonical : Canonical base n t)
    (other : Canonical base m t) : n = m :=
  Option.some.inj (canonical.parse_eq.symm.trans other.parse_eq)

theorem length_text_of_ne_zero (pos : n ≠ 0) :
    (text base n).length = (Nat.digits base n).length := by
  rw [text_of_ne_zero pos, List.length_reverse, List.length_map]

theorem length_text_le (one : 1 < base) (room : 0 < k) (lt : n < base ^ k) :
    (text base n).length ≤ k := by
  by_cases zero : n = 0
  · subst zero
    rw [text, if_pos rfl]
    exact room
  · rw [length_text_of_ne_zero zero]
    exact (Nat.digits_length_le_iff one n).mpr lt

/-- A loop that divides goes over the digits. -/
theorem loop_digits {σ : Type} {ε : Type} {stuck : ε} {fuel : Nat} {s : σ} (one : 1 < base)
    (body : Nat → σ → Except ε σ) (budget : (Nat.digits base n).length < fuel) :
    Outcome.loop stuck (fun n => decide (n ≠ 0)) (· / base) (fun n s => body (n % base) s)
      fuel n s = (Nat.digits base n).foldlM (fun s d => body d s) s := by
  induction fuel generalizing n s with
  | zero => exact absurd budget (Nat.not_lt_zero _)
  | succ fuel ih =>
      rw [Outcome.loop]
      by_cases zero : n = 0
      · subst zero
        rw [if_neg (by simp), Nat.digits_zero]
        rfl
      · have digits := Nat.digits_def' one (Nat.pos_of_ne_zero zero)
        rw [digits, List.length_cons] at budget
        rw [if_pos (decide_eq_true zero), digits, List.foldlM_cons]
        exact congrArg _ (funext fun s => ih (Nat.lt_of_succ_lt_succ budget))

end Numeral
