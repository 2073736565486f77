import Monza.Lib.Outcome
import Mathlib.Tactic.Ring

/-!
# Machine words, faults and address arithmetic

Addresses and sizes are natural numbers below `2 ^ 64`; every operation of the
source that can wrap does so explicitly through `u64`. `alignUp` and `alignDown`
are the `snmalloc::bits` functions, whose alignment is always a power of two, so
masking the low bits is division and multiplication by the alignment.

A fault ends the run: the kernel aborts, or it gives up the call of a compartment,
memory is exhausted, or a loop of the source never terminates.
-/

namespace Monza

/-- The ways in which a kernel function does not return. -/
inductive Fault where
  | kabort
  | callbackAborted
  | outOfMemory
  | diverge
  deriving DecidableEq, Repr

abbrev Result := Except Fault

/-- Wrap to the 64 bits of `address_t`, `size_t` and `uint64_t`. -/
def u64 (n : Nat) : Nat := n % 2 ^ 64

/-- Subtraction of 64-bit words. -/
def sub64 (a b : Nat) : Nat := u64 (a + 2 ^ 64 - b)

def alignUp (value alignment : Nat) : Nat :=
  u64 (value + (alignment - 1)) / alignment * alignment

def alignDown (value alignment : Nat) : Nat := value / alignment * alignment

/-- `snmalloc::aligned_size`, which rounds a size up; zero stays zero. -/
def alignedSize (alignment size : Nat) : Nat := alignUp size alignment

/-- `snmalloc::is_aligned_block`. -/
def isAlignedBlock (alignment address size : Nat) : Bool :=
  decide (address % alignment = 0) && decide (size % alignment = 0)

theorem u64_lt (n : Nat) : u64 n < 2 ^ 64 := Nat.mod_lt _ (by decide)

theorem u64_of_lt {n : Nat} (h : n < 2 ^ 64) : u64 n = n := Nat.mod_eq_of_lt h

theorem sub64_of_le {a b : Nat} (ha : a < 2 ^ 64) (h : b ≤ a) : sub64 a b = a - b := by
  unfold sub64 u64
  omega

theorem alignDown_le (value alignment : Nat) : alignDown value alignment ≤ value :=
  Nat.div_mul_le_self value alignment

theorem alignDown_mod (value alignment : Nat) : alignDown value alignment % alignment = 0 :=
  Nat.mul_mod_left _ _

theorem alignUp_mod (value alignment : Nat) : alignUp value alignment % alignment = 0 :=
  Nat.mul_mod_left _ _

section Alignment

variable {a b n : Nat}

theorem alignUp_of_le (hn : 0 < n) (h : a + n ≤ 2 ^ 64) :
    alignUp a n = (a + (n - 1)) / n * n := by
  rw [alignUp, u64_of_lt (by omega)]

theorem le_alignUp (hn : 0 < n) (h : a + n ≤ 2 ^ 64) : a ≤ alignUp a n := by
  rw [alignUp_of_le hn h]
  have := Nat.div_add_mod (a + (n - 1)) n
  have := Nat.mod_lt (a + (n - 1)) hn
  have := Nat.mul_comm n ((a + (n - 1)) / n)
  omega

theorem alignDown_of_mod (h : a % n = 0) : alignDown a n = a :=
  Nat.div_mul_cancel (Nat.dvd_of_mod_eq_zero h)

/-- The unit of size `n` around `b`, as an interval. -/
theorem div_eq_iff_between (hn : 0 < n) :
    a / n = b / n ↔ b / n * n ≤ a ∧ a < (b / n + 1) * n := by
  rw [Nat.div_eq_iff hn, Nat.add_mul, Nat.one_mul]
  omega

theorem div_eq_iff_of_mod (hn : 0 < n) (hb : b % n = 0) :
    a / n = b / n ↔ b ≤ a ∧ a < b + n := by
  rw [div_eq_iff_between hn, Nat.add_mul, Nat.one_mul,
    Nat.div_mul_cancel (Nat.dvd_of_mod_eq_zero hb)]

/-- A unit that starts before an aligned end lies before it entirely. -/
theorem add_le_of_mod (ha : a % n = 0) (hb : b % n = 0) (h : a < b) : a + n ≤ b := by
  obtain ⟨i, rfl⟩ := Nat.dvd_of_mod_eq_zero ha
  obtain ⟨j, rfl⟩ := Nat.dvd_of_mod_eq_zero hb
  have hij : i + 1 ≤ j := Nat.lt_of_mul_lt_mul_left h
  calc n * i + n = n * (i + 1) := by rw [Nat.mul_succ]
    _ ≤ n * j := Nat.mul_le_mul_left n hij

/-- The least aligned value that is not below. -/
theorem alignUp_le_of_mod (hn : 0 < n) (hb : b % n = 0) (h : a ≤ b) : alignUp a n ≤ b := by
  calc alignUp a n ≤ (a + (n - 1)) / n * n :=
        Nat.mul_le_mul_right n (Nat.div_le_div_right (Nat.mod_le _ _))
    _ ≤ (b + (n - 1)) / n * n := Nat.mul_le_mul_right n (Nat.div_le_div_right (by omega))
    _ = b := by
        obtain ⟨k, rfl⟩ := Nat.dvd_of_mod_eq_zero hb
        rw [Nat.mul_add_div hn, Nat.div_eq_of_lt (by omega), Nat.add_zero, Nat.mul_comm]

theorem alignUp_of_between (hn : 0 < n) (hb : b + n ≤ 2 ^ 64) (low : a ≤ b)
    (high : b ≤ alignUp a n) : alignUp b n = alignUp a n := by
  refine Nat.le_antisymm (alignUp_le_of_mod hn (alignUp_mod a n) high) ?_
  exact alignUp_le_of_mod hn (alignUp_mod b n) (Nat.le_trans low (le_alignUp hn hb))

/-- Behind the last aligned address the boundary wraps to zero. -/
theorem alignUp_of_wrap (ha : a < 2 ^ 64) (h : 2 ^ 64 < a + n) : alignUp a n = 0 := by
  have small : u64 (a + (n - 1)) < n := by
    rw [u64, Nat.mod_eq_sub_mod (by omega)]
    exact Nat.lt_of_le_of_lt (Nat.mod_le _ _) (by omega)
  rw [alignUp, Nat.div_eq_of_lt small, Nat.zero_mul]

theorem add_mod_zero (ha : a % n = 0) (hb : b % n = 0) : (a + b) % n = 0 := by
  rw [Nat.add_mod, ha, hb, Nat.add_zero, Nat.zero_mod]

theorem min_mod (ha : a % n = 0) (hb : b % n = 0) : min a b % n = 0 := by
  rcases Nat.le_total a b with h | h
  · rwa [Nat.min_eq_left h]
  · rwa [Nat.min_eq_right h]

end Alignment

/-- The page size is a build option, either small or large pages. -/
inductive PageSize where
  | kib4
  | mib2
  deriving DecidableEq, Repr

namespace PageSize

def bytes : PageSize → Nat
  | kib4 => 4096
  | mib2 => 2097152

theorem bytes_pos (ps : PageSize) : 0 < ps.bytes := by
  cases ps <;> decide

theorem bytes_le (ps : PageSize) : ps.bytes ≤ 2 ^ 21 := by
  cases ps <;> decide

end PageSize

end Monza
