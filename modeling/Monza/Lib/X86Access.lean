import Monza.Lib.X86

/-!
# Memory accesses of straight-line code

Which words the instructions of a block read and write, in order and with the page table that is
installed at each access. An access may trap; the ones behind it are then not made.
-/

namespace X86

variable {τ φ ρ σ : Type}

inductive AccessKind where
  | read
  | write
  deriving DecidableEq, Repr

/-- An access to eight bytes under a page table. -/
structure Access where
  kind : AccessKind
  root : Nat
  address : Nat
  deriving DecidableEq, Repr

def Access.bytes (a : Access) : List Nat := (List.range 8).map fun i => word (a.address + i)

theorem Access.mem_bytes {a : Access} {b : Nat} (low : a.address + 8 ≤ 2 ^ 64) :
    b ∈ a.bytes ↔ ∃ i < 8, b = a.address + i := by
  rw [bytes, List.mem_map]
  constructor
  · rintro ⟨i, mem, rfl⟩
    have lt := List.mem_range.mp mem
    exact ⟨i, lt, word_of_lt (by omega)⟩
  · rintro ⟨i, lt, rfl⟩
    exact ⟨i, List.mem_range.mpr lt, word_of_lt (by omega)⟩

@[simp] def Operand.accesses (s : State) : Operand τ → List Access
  | .reg _ => []
  | .imm _ => []
  | .place p => [⟨.read, s.cr3, s.address p⟩]

@[simp] def Instr.accesses (s : State) : Instr τ φ → List Access
  | mov _ src => src.accesses s
  | store dst src => src.accesses s ++ [⟨.write, s.cr3, s.address dst⟩]
  | alu _ _ src => src.accesses s
  | inc dst => [⟨.write, s.cr3, s.address dst⟩]
  | cmp _ src => src.accesses s
  | push src => src.accesses s ++ [⟨.write, s.cr3, s.pushAddress⟩]
  | pop _ => [⟨.read, s.cr3, s.regs .rsp⟩]
  | popf => [⟨.read, s.cr3, s.regs .rsp⟩]
  | call _ => [⟨.write, s.cr3, s.pushAddress⟩]
  | _ => []

/-- The accesses of a block, as long as none of them traps. -/
@[simp] def accesses (E : Env φ ρ) : List (Instr τ φ) → State → List Access
  | [], _ => []
  | i :: is, s => i.accesses s ++ accesses E is (i.effect E s)

/-- The accesses that are made, and the trap that ends them. -/
def attempt (trap : Access → Option σ) : List Access → List Access × Option σ
  | [] => ([], none)
  | a :: as =>
      match trap a with
      | some t => ([], some t)
      | none => (a :: (attempt trap as).1, (attempt trap as).2)

section Attempt

variable {trap : Access → Option σ} {a : Access} {as : List Access} {t : σ}

theorem attempt_of_trap (h : trap a = some t) : attempt trap (a :: as) = ([], some t) := by
  rw [attempt, h]

theorem mem_attempt (h : trap a = none) : a ∈ (attempt trap (a :: as)).1 := by
  rw [attempt, h]
  exact List.mem_cons_self

theorem attempt_eq (h : ∀ a ∈ as, trap a = none) : attempt trap as = (as, none) := by
  induction as with
  | nil => rfl
  | cons a as ih =>
      obtain ⟨first, rest⟩ := List.forall_mem_cons.mp h
      rw [attempt, first, ih rest]

end Attempt

end X86
