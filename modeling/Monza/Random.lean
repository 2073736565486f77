import Monza.Machine
import Mathlib.Data.List.Basic

/-!
# Random bytes from the processor

The buffer is filled in blocks of eight bytes and a last block of what is left. The loop
over the blocks ends eight bytes before the end of the buffer, and this bound is a
difference of unsigned words: for less than eight bytes it is close to the largest word,
and the loop writes whole blocks from the start of the buffer on, as long as the processor
delivers.
-/

namespace Monza

open Outcome

/-- The answers of the processor to `_rdseed64_step`, in order: a value, or failure. -/
abbrev Rdseed := Nat → Option (BitVec 64)

/-- The memory from the start of the buffer on, the offsets that were written so far, and the
number of answers that were used. -/
structure RandomFill where
  memory : Nat → BitVec 8
  written : List Nat
  steps : Nat

/-- Byte `i` of a value in memory. -/
def byteOf (value : BitVec 64) (i : Nat) : BitVec 8 := value.extractLsb' (8 * i) 8

namespace RandomFill

def start (memory : Nat → BitVec 8) : RandomFill := ⟨memory, [], 0⟩

/-- The state after another answer. -/
def step (s : RandomFill) : RandomFill := { s with steps := s.steps + 1 }

/-- Copy the first bytes of a value to an offset. -/
def memcpy (s : RandomFill) (offset : Nat) (value : BitVec 64) (length : Nat) : RandomFill :=
  { s with
    memory := fun i =>
      if offset ≤ i ∧ i < offset + length then byteOf value (i - offset) else s.memory i
    written := s.written ++ List.range' offset length }

end RandomFill

section Definitions

variable (rdseed : Rdseed) (size : Nat)

/-- `get_hardware_random_bytes` from an index of the loop on. -/
def fillFrom : Nat → Nat → RandomFill → Result (Nat × RandomFill)
  | 0, _, _ => .error .diverge
  | fuel + 1, bufferIndex, s =>
    if bufferIndex < sub64 size 8 then
      match rdseed s.steps with
      | none => .ok (bufferIndex, s.step)
      | some randomValue =>
        fillFrom fuel (u64 (bufferIndex + 8)) (s.step.memcpy bufferIndex randomValue 8)
    else
      match rdseed s.steps with
      | none => .ok (bufferIndex, s.step)
      | some randomValue =>
        .ok (size, s.step.memcpy bufferIndex randomValue (sub64 size bufferIndex))

def getHardwareRandomBytes (fuel : Nat) (memory : Nat → BitVec 8) : Result (Nat × RandomFill) :=
  fillFrom rdseed size fuel 0 (.start memory)

def getentropy (fuel : Nat) (memory : Nat → BitVec 8) : Result (Int × RandomFill) := do
  let (filled, s) ← getHardwareRandomBytes rdseed size fuel memory
  .ok (if filled = size then 0 else -1, s)

end Definitions

variable {rdseed : Rdseed} {size k : Nat} {memory : Nat → BitVec 8} {s t : RandomFill}

/-- What the result of a call should be: the bytes before `filled` are those of the answers, in
order, nothing behind them has changed, nothing was written outside of the buffer, and the buffer
is full exactly if no answer was a failure. -/
structure FillsBuffer (rdseed : Rdseed) (size : Nat) (memory : Nat → BitVec 8) (filled : Nat)
    (s : RandomFill) : Prop where
  written : ∀ i ∈ s.written, i < size
  filled_le : filled ≤ size
  random : ∀ i < filled, i / 8 < s.steps ∧
    ∃ value, rdseed (i / 8) = some value ∧ s.memory i = byteOf value (i % 8)
  untouched : ∀ i, filled ≤ i → s.memory i = memory i
  full_iff : filled = size ↔ ∀ j < s.steps, rdseed j ≠ none

/-- After `k` blocks. -/
structure Blocks (rdseed : Rdseed) (memory : Nat → BitVec 8) (k : Nat) (s : RandomFill) :
    Prop where
  steps : s.steps = k
  written : ∀ i ∈ s.written, i < 8 * k
  random : ∀ i < 8 * k, ∃ value, rdseed (i / 8) = some value ∧ s.memory i = byteOf value (i % 8)
  untouched : ∀ i, 8 * k ≤ i → s.memory i = memory i

namespace Blocks

theorem start : Blocks rdseed memory 0 (.start memory) :=
  ⟨rfl, fun _ h => absurd h List.not_mem_nil, fun _ h => absurd h (Nat.not_lt_zero _),
    fun _ _ => rfl⟩

theorem answered (h : Blocks rdseed memory k s) {j : Nat} (lt : j < k) : rdseed j ≠ none := by
  obtain ⟨value, answer, -⟩ := h.random (8 * j) (by omega)
  rw [Nat.mul_div_cancel_left j (by decide)] at answer
  rw [answer]
  exact Option.some_ne_none value

/-- Copying (part of) the next answer behind the blocks. -/
theorem memcpy_random (h : Blocks rdseed memory k s) {value : BitVec 64} (length : Nat)
    (answer : rdseed k = some value) (short : length ≤ 8) :
    ∀ i < 8 * k + length, ∃ value', rdseed (i / 8) = some value' ∧
      (s.step.memcpy (8 * k) value length).memory i = byteOf value' (i % 8) := by
  intro i hi
  rw [RandomFill.memcpy]
  by_cases before : i < 8 * k
  · simp only [if_neg (show ¬ (8 * k ≤ i ∧ i < 8 * k + length) by omega)]
    exact h.random i before
  · refine ⟨value, by rw [show i / 8 = k by omega]; exact answer, ?_⟩
    simp only [if_pos (show 8 * k ≤ i ∧ i < 8 * k + length by omega)]
    rw [show i - 8 * k = i % 8 by omega]

theorem memcpy_untouched (h : Blocks rdseed memory k s) (value : BitVec 64) (length : Nat) :
    ∀ i, 8 * k + length ≤ i → (s.step.memcpy (8 * k) value length).memory i = memory i := by
  intro i hi
  rw [RandomFill.memcpy]
  simp only [if_neg (show ¬ (8 * k ≤ i ∧ i < 8 * k + length) by omega)]
  exact h.untouched i (by omega)

theorem memcpy_written (h : Blocks rdseed memory k s) (value : BitVec 64) (length : Nat) :
    ∀ i ∈ (s.step.memcpy (8 * k) value length).written, i < 8 * k + length := by
  intro i hi
  rcases List.mem_append.mp hi with old | new
  · exact Nat.lt_of_lt_of_le (h.written i old) (Nat.le_add_right _ _)
  · exact (List.mem_range'_1.mp new).2

theorem next (h : Blocks rdseed memory k s) {value : BitVec 64}
    (answer : rdseed k = some value) :
    Blocks rdseed memory (k + 1) (s.step.memcpy (8 * k) value 8) :=
  ⟨congrArg (· + 1) h.steps, h.memcpy_written value 8, h.memcpy_random 8 answer (Nat.le_refl 8),
    h.memcpy_untouched value 8⟩

theorem answered_succ (h : Blocks rdseed memory k s) {value : BitVec 64}
    (answer : rdseed k = some value) {j : Nat} (lt : j < k + 1) : rdseed j ≠ none := by
  rcases Nat.lt_succ_iff_lt_or_eq.mp lt with lt | rfl
  · exact h.answered lt
  · rw [answer]
    exact Option.some_ne_none value

/-- A failure ends the call with the blocks so far. -/
theorem failed (h : Blocks rdseed memory k s) (inside : 8 * k < size)
    (failure : rdseed k = none) : FillsBuffer rdseed size memory (8 * k) s.step := by
  have steps : s.step.steps = k + 1 := congrArg (· + 1) h.steps
  refine ⟨fun i hi => ?_, Nat.le_of_lt inside, fun i hi => ?_, h.untouched, ?_⟩
  · exact Nat.lt_trans (h.written i hi) inside
  · exact ⟨by omega, h.random i hi⟩
  · rw [steps]
    constructor
    · intro full
      exact absurd full (Nat.ne_of_lt inside)
    · intro all
      exact absurd failure (all k (Nat.lt_succ_self k))

/-- The last block, with what is left of the buffer. -/
theorem last (h : Blocks rdseed memory k s) {value : BitVec 64} (inside : 8 * k < size)
    (short : size ≤ 8 * k + 8) (answer : rdseed k = some value) :
    FillsBuffer rdseed size memory size (s.step.memcpy (8 * k) value (size - 8 * k)) := by
  have steps : (s.step.memcpy (8 * k) value (size - 8 * k)).steps = k + 1 :=
    congrArg (· + 1) h.steps
  have whole : 8 * k + (size - 8 * k) = size := Nat.add_sub_of_le (Nat.le_of_lt inside)
  have written := h.memcpy_written value (size - 8 * k)
  have random := h.memcpy_random (size - 8 * k) answer (by omega)
  have untouched := h.memcpy_untouched value (size - 8 * k)
  rw [whole] at written random untouched
  refine ⟨written, Nat.le_refl _, fun i hi => ⟨by omega, random i hi⟩, untouched, ?_⟩
  rw [steps]
  exact ⟨fun _ j lt => h.answered_succ answer lt, fun _ => rfl⟩

end Blocks

/-- From eight bytes on, the loop stays ahead of the end of the buffer. -/
theorem fillFrom_fills (word : size < 2 ^ 64) (enough : 8 ≤ size) (fuel : Nat)
    (h : Blocks rdseed memory k s) (inside : 8 * k < size) (budget : size ≤ 8 * (k + fuel)) :
    ∃ filled t, fillFrom rdseed size (fuel + 1) (8 * k) s = .ok (filled, t) ∧
      FillsBuffer rdseed size memory filled t := by
  have bound : sub64 size 8 = size - 8 := sub64_of_le word enough
  induction fuel generalizing k s with
  | zero => exact absurd budget (by omega)
  | succ fuel ih =>
      rw [fillFrom, bound, h.steps]
      cases answer : rdseed k with
      | none =>
          rw [ite_self]
          exact ⟨_, _, rfl, h.failed inside answer⟩
      | some value =>
          by_cases more : 8 * k < size - 8
          · have index : u64 (8 * k + 8) = 8 * (k + 1) := u64_of_lt (by omega)
            simp only [if_pos more, index]
            exact ih (h.next answer) (by omega) (by omega)
          · have rest : sub64 size (8 * k) = size - 8 * k := sub64_of_le word (Nat.le_of_lt inside)
            simp only [if_neg more, rest]
            exact ⟨_, _, rfl, h.last inside (by omega) answer⟩

/-- What is written stays written. -/
theorem fillFrom_written {fuel index filled : Nat}
    (done : fillFrom rdseed size fuel index s = .ok (filled, t)) : s.written ⊆ t.written := by
  induction fuel generalizing index s with
  | zero => cases done
  | succ fuel ih =>
      rw [fillFrom] at done
      cases answer : rdseed s.steps with
      | none =>
          rw [answer, ite_self] at done
          cases done
          exact List.Subset.refl _
      | some value =>
          simp only [answer] at done
          split at done
          · exact List.Subset.trans (List.subset_append_left _ _) (ih done)
          · cases done
            exact List.subset_append_left _ _

section Small

variable (small : size < 8)

include small

/-- Below eight bytes, the bound of the loop has wrapped. -/
theorem lt_sub64_of_small : 0 < sub64 size 8 := by
  unfold sub64 u64
  omega

/-- A failure at the start leaves everything as it was. -/
theorem getHardwareRandomBytes_of_none (failure : rdseed 0 = none) (fuel : Nat) :
    getHardwareRandomBytes rdseed size (fuel + 1) memory =
      .ok (0, (RandomFill.start memory).step) := by
  have first : rdseed (RandomFill.start memory).steps = none := failure
  rw [getHardwareRandomBytes, fillFrom, if_pos (lt_sub64_of_small small), first]

/-- Otherwise the first answer is written in full, whatever follows. -/
theorem overrun_of_some {fuel filled : Nat} {value : BitVec 64} (answer : rdseed 0 = some value)
    (done : getHardwareRandomBytes rdseed size fuel memory = .ok (filled, t)) : 7 ∈ t.written := by
  have first : rdseed (RandomFill.start memory).steps = some value := answer
  cases fuel with
  | zero => cases done
  | succ fuel =>
      rw [getHardwareRandomBytes, fillFrom, if_pos (lt_sub64_of_small small), first] at done
      exact fillFrom_written done (show 7 ∈ [] ++ List.range' 0 8 by decide)

end Small

theorem getentropy_eq {fuel filled : Nat}
    (done : getHardwareRandomBytes rdseed size fuel memory = .ok (filled, s)) :
    getentropy rdseed size fuel memory = .ok (if filled = size then 0 else -1, s) := by
  rw [getentropy, done]
  rfl

/-- A call terminates, fills exactly its buffer and reports so, exactly if the buffer has at least
eight bytes or, unless it is empty, the processor fails at once. -/
theorem random_bytes_fill_buffer_iff (word : size < 2 ^ 64) :
    (∃ fuel filled s status, getHardwareRandomBytes rdseed size fuel memory = .ok (filled, s) ∧
      FillsBuffer rdseed size memory filled s ∧
      getentropy rdseed size fuel memory = .ok (status, s) ∧ (status = 0 ↔ filled = size)) ↔
    8 ≤ size ∨ 1 ≤ size ∧ rdseed 0 = none := by
  have status : ∀ filled, (if filled = size then (0 : Int) else -1) = 0 ↔ filled = size := by
    intro filled
    split <;> simp_all
  constructor
  · rintro ⟨fuel, filled, s, -, done, fills, -⟩
    by_cases enough : 8 ≤ size
    · exact .inl enough
    · have small := Nat.lt_of_not_le enough
      cases answer : rdseed 0 with
      | some value =>
          have outside := fills.written 7 (overrun_of_some small answer done)
          exact absurd outside (by omega)
      | none =>
          refine .inr ⟨Nat.pos_of_ne_zero fun empty => ?_, rfl⟩
          obtain ⟨rfl, rfl⟩ : filled = 0 ∧ s = (RandomFill.start memory).step := by
            cases fuel with
            | zero => cases done
            | succ fuel =>
                rw [getHardwareRandomBytes_of_none small answer] at done
                cases done
                exact ⟨rfl, rfl⟩
          exact fills.full_iff.mp empty.symm 0 Nat.one_pos answer
  · intro condition
    obtain ⟨fuel, filled, s, done, fills⟩ : ∃ fuel filled s,
        getHardwareRandomBytes rdseed size fuel memory = .ok (filled, s) ∧
          FillsBuffer rdseed size memory filled s := by
      by_cases enough : 8 ≤ size
      · exact ⟨size + 1, fillFrom_fills (k := 0) word enough size .start (by omega) (by omega)⟩
      · obtain ⟨nonempty, failure⟩ := condition.resolve_left enough
        exact ⟨1, 0, _, getHardwareRandomBytes_of_none (Nat.lt_of_not_le enough) failure 0,
          Blocks.start.failed nonempty failure⟩
    exact ⟨fuel, filled, s, _, done, fills, getentropy_eq done, status filled⟩

/-- Nine bytes, with two answers. -/
theorem random_bytes_fill_nine : ∃ fuel filled s status,
    getHardwareRandomBytes (fun _ => some 0x0807060504030201#64) 9 fuel (fun _ => 0#8) =
      .ok (filled, s) ∧
    FillsBuffer (fun _ => some 0x0807060504030201#64) 9 (fun _ => 0#8) filled s ∧
    getentropy (fun _ => some 0x0807060504030201#64) 9 fuel (fun _ => 0#8) = .ok (status, s) ∧
    (status = 0 ↔ filled = 9) :=
  (random_bytes_fill_buffer_iff (by decide)).mpr (.inl (by decide))

/-- For four bytes, the first answer overruns the buffer. When the second fails, the call has
written eight bytes and says so, and `getentropy` reports a failure. -/
theorem random_bytes_overrun :
    (getHardwareRandomBytes (fun i => if i = 0 then some 0x0807060504030201#64 else none) 4 2
      (fun _ => 0#8)).map (fun r => (r.1, r.2.written, r.2.memory 7)) =
      .ok (8, [0, 1, 2, 3, 4, 5, 6, 7], 8#8) := by
  decide +kernel

end Monza
