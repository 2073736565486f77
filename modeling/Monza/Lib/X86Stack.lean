import Monza.Lib.X86

/-!
# Stack frames and flags

The part of a core that a call has to leave as it found it: the stack pointer, the registers that
a callee saves, and the flags. Additions and subtractions set the status flags and nothing else of
the flags; `pushf` and `popf` move the whole word.

`Holds` says which words are in memory from an address upwards. `Stacked` does so for a list of
blocks, innermost first, each of them below the next one, as the frames of nested calls are.
-/

namespace X86

def wordAdd (a n : Nat) : Nat := word (n + a)

/-- The large number is on the left, where unfolding the addition does not count it down. -/
def wordSub (a n : Nat) : Nat := word (2 ^ 64 + a - n)

theorem wordAdd_of_lt {a n : Nat} (lt : a + n < 2 ^ 64) : wordAdd a n = a + n := by
  rw [wordAdd, Nat.add_comm, word_of_lt lt]

theorem wordSub_of_le {a n : Nat} (le : n ≤ a) (lt : a < 2 ^ 64) : wordSub a n = a - n := by
  rw [wordSub, word]
  omega

section Flags

/-- The carry, parity, adjust, zero, sign and overflow flags. -/
def statusFlags : Nat := 0x8D5

/-- All other bits of the flags. -/
def controlFlags : Nat := 0xFFFFFFFFFFFFF72A

def withStatus (rflags status : Nat) : Nat := rflags &&& controlFlags ||| status &&& statusFlags

@[simp] theorem withStatus_controlFlags (rflags status : Nat) :
    withStatus rflags status &&& controlFlags = rflags &&& controlFlags := by
  have apart : statusFlags &&& controlFlags = 0 := by decide
  rw [withStatus, Nat.and_or_distrib_right, Nat.and_assoc, Nat.and_self, Nat.and_assoc, apart,
    Nat.and_zero, Nat.or_zero]

def negative (n : Nat) : Bool := 2 ^ 63 ≤ n

/-- Whether the number of bits set in the lowest byte is even. -/
def evenParity (n : Nat) : Bool := (List.range 8).countP n.testBit % 2 == 0

def statusOf (result : Nat) (carry adjust overflow : Bool) : Nat :=
  carry.toNat + (evenParity result).toNat * 0x4 + adjust.toNat * 0x10 +
    (result == 0).toNat * 0x40 + (negative result).toNat * 0x80 + overflow.toNat * 0x800

/-- The status flags after `a + b`. -/
def addStatus (a b : Nat) : Nat :=
  let result := wordAdd a b
  statusOf result (2 ^ 64 ≤ a + b) (16 ≤ a % 16 + b % 16)
    (negative a == negative b && negative result != negative a)

/-- The status flags after `a - b`. -/
def subStatus (a b : Nat) : Nat :=
  let result := wordSub a b
  statusOf result (a < b) (a % 16 < b % 16)
    (negative a != negative b && negative result != negative a)

end Flags

/-- The registers that a callee saves. -/
structure CalleeSaved where
  rbx : Nat
  rbp : Nat
  r12 : Nat
  r13 : Nat
  r14 : Nat
  r15 : Nat
  deriving DecidableEq, Repr

def CalleeSaved.words (r : CalleeSaved) : List Nat := [r.rbx, r.rbp, r.r12, r.r13, r.r14, r.r15]

structure CallState where
  rsp : Nat
  rflags : Nat
  saved : CalleeSaved
  memory : Nat → Nat

namespace CallState

variable (c : CallState)

def addRsp (n : Nat) : CallState :=
  { c with rsp := wordAdd c.rsp n, rflags := withStatus c.rflags (addStatus c.rsp n) }

def subRsp (n : Nat) : CallState :=
  { c with rsp := wordSub c.rsp n, rflags := withStatus c.rflags (subStatus c.rsp n) }

/-- An addition elsewhere, of which only the flags matter. -/
def adds (a b : Nat) : CallState :=
  { c with rflags := withStatus c.rflags (addStatus a b) }

def compares (a b : Nat) : CallState :=
  { c with rflags := withStatus c.rflags (subStatus a b) }

def put (a v : Nat) : CallState := { c with memory := Function.update c.memory a v }

def push (v : Nat) : CallState :=
  { c with
    rsp := wordSub c.rsp 8
    memory := Function.update c.memory (wordSub c.rsp 8) v }

def pushf : CallState := c.push c.rflags

def pop : Nat × CallState := (c.memory c.rsp, { c with rsp := wordAdd c.rsp 8 })

def popf : CallState := { c with rsp := wordAdd c.rsp 8, rflags := c.memory c.rsp }

end CallState

/-- The words from an address upwards. -/
def Holds (memory : Nat → Nat) : Nat → List Nat → Prop
  | _, [] => True
  | a, w :: ws => memory a = w ∧ Holds memory (a + 8) ws

section Holds

variable {memory memory' : Nat → Nat} {a : Nat} {ws : List Nat}

theorem Holds.congr (h : Holds memory a ws)
    (same : ∀ i < ws.length, memory' (a + 8 * i) = memory (a + 8 * i)) : Holds memory' a ws := by
  induction ws generalizing a with
  | nil => trivial
  | cons w ws ih =>
      refine ⟨(same 0 (Nat.succ_pos _)).trans h.1, ih h.2 ?_⟩
      intro i lt
      have next := same (i + 1) (Nat.succ_lt_succ lt)
      rwa [show a + 8 * (i + 1) = a + 8 + 8 * i by omega] at next

theorem holds_append {us : List Nat} :
    Holds memory a (us ++ ws) ↔ Holds memory a us ∧ Holds memory (a + 8 * us.length) ws := by
  induction us generalizing a with
  | nil => exact (Iff.of_eq (true_and _)).symm
  | cons u us ih =>
      rw [List.cons_append, Holds, Holds, ih, and_assoc, List.length_cons,
        show a + 8 * (us.length + 1) = a + 8 + 8 * us.length by omega]

end Holds

section CallState

variable {c : CallState} {v : Nat}

theorem CallState.push_rsp (room : 8 ≤ c.rsp) (lt : c.rsp < 2 ^ 64) :
    (c.push v).rsp = c.rsp - 8 :=
  wordSub_of_le room lt

theorem CallState.push_memory (room : 8 ≤ c.rsp) (lt : c.rsp < 2 ^ 64) :
    (c.push v).memory = Function.update c.memory (c.rsp - 8) v := by
  rw [push, wordSub_of_le room lt]

@[simp] theorem CallState.push_saved : (c.push v).saved = c.saved := rfl

@[simp] theorem CallState.push_rflags : (c.push v).rflags = c.rflags := rfl

@[simp] theorem CallState.adds_rsp {a b : Nat} : (c.adds a b).rsp = c.rsp := rfl

@[simp] theorem CallState.adds_saved {a b : Nat} : (c.adds a b).saved = c.saved := rfl

@[simp] theorem CallState.adds_memory {a b : Nat} : (c.adds a b).memory = c.memory := rfl

@[simp] theorem CallState.adds_rflags {a b : Nat} :
    (c.adds a b).rflags = withStatus c.rflags (addStatus a b) := rfl

@[simp] theorem CallState.subRsp_saved : (c.subRsp v).saved = c.saved := rfl

@[simp] theorem CallState.subRsp_memory : (c.subRsp v).memory = c.memory := rfl

theorem CallState.subRsp_rsp (room : v ≤ c.rsp) (lt : c.rsp < 2 ^ 64) :
    (c.subRsp v).rsp = c.rsp - v :=
  wordSub_of_le room lt

/-- Some words have been pushed, and what was on the stack before is still there. -/
structure Pushed (c c' : CallState) (us : List Nat) : Prop where
  rsp : c'.rsp + 8 * us.length = c.rsp
  holds : Holds c'.memory c'.rsp us
  above : ∀ x, c.rsp ≤ x → c'.memory x = c.memory x

namespace Pushed

variable {c' c'' : CallState} {us vs : List Nat}

theorem push (room : 8 ≤ c.rsp) (lt : c.rsp < 2 ^ 64) : Pushed c (c.push v) [v] := by
  have rsp := CallState.push_rsp (v := v) room lt
  have memory := CallState.push_memory (v := v) room lt
  refine ⟨by rw [rsp]; exact Nat.sub_add_cancel room, ⟨?_, trivial⟩, ?_⟩
  · rw [rsp, memory, Function.update_self]
  · intro x le
    rw [memory]
    apply Function.update_of_ne
    omega

theorem adds (a b : Nat) : Pushed c (c.adds a b) [] := ⟨rfl, trivial, fun _ _ => rfl⟩

theorem trans (first : Pushed c c' us) (second : Pushed c' c'' vs) : Pushed c c'' (vs ++ us) := by
  have low := first.rsp
  have lower := second.rsp
  refine ⟨by rw [List.length_append]; omega, holds_append.mpr ⟨second.holds, ?_⟩, ?_⟩
  · rw [lower]
    apply first.holds.congr
    intro i _
    apply second.above
    omega
  · intro x le
    rw [second.above x (by omega), first.above x le]

end Pushed

end CallState

structure Block where
  base : Nat
  words : List Nat

def Block.stop (b : Block) : Nat := b.base + 8 * b.words.length

/-- Blocks of words in memory, each below the next one. -/
structure Stacked (memory : Nat → Nat) (blocks : List Block) : Prop where
  holds : ∀ b ∈ blocks, Holds memory b.base b.words
  ordered : blocks.Pairwise fun inner outer => inner.stop ≤ outer.base

namespace Stacked

variable {memory memory' : Nat → Nat} {b : Block} {blocks : List Block}

theorem nil : Stacked memory [] := ⟨fun _ no => (List.not_mem_nil no).elim, .nil⟩

theorem congr (h : Stacked memory blocks)
    (same : ∀ b ∈ blocks, ∀ i < b.words.length,
      memory' (b.base + 8 * i) = memory (b.base + 8 * i)) :
    Stacked memory' blocks :=
  ⟨fun b mem => (h.holds b mem).congr (same b mem), h.ordered⟩

theorem tail (h : Stacked memory (b :: blocks)) : Stacked memory blocks :=
  ⟨fun b mem => h.holds b (List.mem_cons_of_mem _ mem), h.ordered.tail⟩

/-- What is below the innermost block is below all of them. -/
theorem le_base (h : Stacked memory blocks) {a : Nat} (inner : ∀ o ∈ blocks.head?, a ≤ o.base) :
    ∀ o ∈ blocks, a ≤ o.base := by
  cases blocks with
  | nil => exact fun _ no => (List.not_mem_nil no).elim
  | cons o os =>
      have first : a ≤ o.base := inner o rfl
      intro p mem
      rcases List.mem_cons.mp mem with rfl | mem
      · exact first
      · have above := List.rel_of_pairwise_cons h.ordered mem
        unfold Block.stop at above
        omega

/-- A new innermost block, pushed below the others. -/
theorem cons {c c' : CallState} {us : List Nat} (h : Stacked c.memory blocks)
    (new : Pushed c c' us) (inner : ∀ o ∈ blocks.head?, c.rsp ≤ o.base) :
    Stacked c'.memory (⟨c'.rsp, us⟩ :: blocks) := by
  have below := h.le_base inner
  have rest : Stacked c'.memory blocks := by
    apply h.congr
    intro o mem i _
    have := below o mem
    apply new.above
    omega
  refine ⟨?_, List.pairwise_cons.mpr ⟨?_, rest.ordered⟩⟩
  · intro o mem
    rcases List.mem_cons.mp mem with rfl | mem
    · exact new.holds
    · exact rest.holds o mem
  · intro o mem
    show c'.rsp + 8 * us.length ≤ o.base
    rw [new.rsp]
    exact below o mem

end Stacked

end X86
