import Monza.Boot.Idt
import Monza.Entry.Gates

/-!
# A core of the kernel and the frames on its interrupt stack

What boot has fixed for a core, and how the processor enters a gate: it switches to the first
interrupt stack and pushes a frame. Below the frame it pushes a status for some exceptions. That is
a matter of the exception and not of the gate: for two exceptions a status is pushed that their gate
does not expect.
-/

namespace Monza

open X86 X86.Reg Asm

/-- Nothing is asked of what is seen. -/
def unwatched (_ : Sighting KernelData CppFunction) : Prop := True

/-- What boot has fixed for the executing core. -/
structure KernelCore where
  symbols : Symbols
  core : Nat
  kernelPagetable : Nat
  perCoreData : Nat
  kernelTls : Nat
  stackBase : Nat
  stackTop : Nat
  rootBound : kernelPagetable < 2 ^ 64
  tlsBound : kernelTls < 2 ^ 64
  dataBound : perCoreData + 128 * (core + 1) ≤ 2 ^ 64
  stackBound : stackTop < 2 ^ 64
  stackRoom : stackBase + 0x1000 ≤ stackTop

namespace KernelCore

variable (K : KernelCore)

/-- The address of the core's `PerCoreData`. -/
def perCore : Nat := K.perCoreData + 128 * K.core

/-- `TSS_SEG`, the task register of the core. -/
def taskRegister : Nat := 0x30 + 16 * K.core + 3

/-- The addresses of the words below. -/
def wordAddresses : List Nat :=
  [K.symbols.kernelPagetable, K.symbols.perCoreData, K.perCore, K.perCore + 0x28]

/-- The words of memory the entry code relies on. -/
structure Words (memory : Nat → Nat) : Prop where
  root : memory K.symbols.kernelPagetable = K.kernelPagetable
  data : memory K.symbols.perCoreData = K.perCoreData
  self : memory K.perCore = K.perCore
  tls : memory (K.perCore + 0x28) = K.kernelTls

/-- The stacks for interrupts are writable under every table, the kernel's stacks under its
own. A compartment's table lets nothing write to the words the kernel relies on. -/
structure Sound (E : Env CppFunction StackTrap) : Prop where
  kernelPush : ∀ a, E.pushTrap K.kernelPagetable a = none
  stackPush : ∀ root a, K.stackBase ≤ a → a < K.stackTop → E.pushTrap root a = none
  compartmentPush : ∀ root a, root ≠ K.kernelPagetable → E.pushTrap root a = none →
    a ∉ K.wordAddresses

variable {K} {E : Env CppFunction StackTrap} {s : State}

theorem Words.update {memory : Nat → Nat} (h : K.Words memory) {a : Nat} (n : Nat)
    (ha : a ∉ K.wordAddresses) : K.Words (Function.update memory a n) := by
  simp only [wordAddresses, List.mem_cons, List.not_mem_nil, or_false, not_or] at ha
  obtain ⟨h₁, h₂, h₃, h₄⟩ := ha
  constructor
  · rw [Function.update_of_ne (Ne.symm h₁), h.root]
  · rw [Function.update_of_ne (Ne.symm h₂), h.data]
  · rw [Function.update_of_ne (Ne.symm h₃), h.self]
  · rw [Function.update_of_ne (Ne.symm h₄), h.tls]

/-- The interrupt stack holds none of the kernel's words. -/
theorem Sound.notMem_of_stack (sound : K.Sound E) {a : Nat} (above : K.stackBase ≤ a)
    (below : a < K.stackTop) : a ∉ K.wordAddresses :=
  sound.compartmentPush (K.kernelPagetable + 1) a (Nat.succ_ne_self _)
    (sound.stackPush _ a above below)

/-- The core is set up and runs in a given context. -/
structure In (K : KernelCore) (k : Context) (s : State) : Prop where
  task : s.tr = K.taskRegister
  words : K.Words s.memory
  context : s.context = k

variable {k : Context}

/-- General registers and flags do not matter. -/
theorem In.outer {t : State} (h : K.In k s) (memory : s.memory = t.memory) (tr : s.tr = t.tr)
    (context : s.context = t.context) : K.In k t :=
  ⟨tr ▸ h.task, memory ▸ h.words, context ▸ h.context⟩

theorem In.put (h : K.In k s) {a : Nat} (n : Nat) (ha : a ∉ K.wordAddresses) : K.In k (s.put a n) :=
  ⟨h.task, h.words.update n ha, h.context⟩

/-- In a given context, with something known about what the stack pointer points to. -/
structure On (K : KernelCore) (k : Context) (Q : (Nat → Nat) → Nat → Prop) (s : State) : Prop where
  inside : K.In k s
  stack : Q s.memory (s.regs rsp)

theorem On.outer {Q : (Nat → Nat) → Nat → Prop} {t : State} (h : K.On k Q s)
    (memory : s.memory = t.memory) (tr : s.tr = t.tr) (context : s.context = t.context)
    (pointer : s.regs rsp = t.regs rsp) : K.On k Q t :=
  ⟨h.inside.outer memory tr context, memory ▸ pointer ▸ h.stack⟩

/-- The words from the stack pointer to the top of the interrupt stack. -/
structure Stacked (K : KernelCore) (words : List Nat) (memory : Nat → Nat) (sp : Nat) : Prop where
  pointer : sp + 8 * words.length = K.stackTop
  stored : ∀ i, (h : i < words.length) → memory (sp + 8 * i) = words[i]

end KernelCore

namespace Idt

/-- The exceptions for which the processor pushes a status. -/
def pushesStatus (vector : Nat) : Bool :=
  vector ∈ [8, 10, 11, 12, 13, 14, 17, 21, 29, 30]

/-- The gates that use `print_and_halt`, not `print_and_halt_no_status`. -/
def Handler.expectsStatus : Handler → Bool
  | exception number => number ∈ [8, 10, 11, 12, 13, 17, 30]
  | _ => false

/-- The code of the gates, with the addresses of the texts that they print. -/
def Handler.entry (text : Handler → BitVec 64) : Handler → Entry
  | breakpoint => .breakpoint
  | pagefault => .pagefault
  | wakeup => .wakeup
  | nopInterrupt => .nopInterrupt
  | h => .printAndHalt h.expectsStatus (text h).toNat

/-- The gates that end in a report. -/
def Handler.prints : Handler → Bool
  | breakpoint => false
  | pagefault => false
  | wakeup => false
  | nopInterrupt => false
  | _ => true

theorem Handler.entry_of_prints (text : Handler → BitVec 64) {h : Handler}
    (prints : h.prints = true) : h.entry text = .printAndHalt h.expectsStatus (text h).toNat := by
  cases h with
  | breakpoint => cases prints
  | pagefault => cases prints
  | wakeup => cases prints
  | nopInterrupt => cases prints
  | _ => rfl

theorem vector_of_pagefault {v : Nat} (h : handler v = .pagefault) : v = 14 := by
  unfold handler at h
  split_ifs at h
  assumption

theorem vector_of_breakpoint {v : Nat} (h : handler v = .breakpoint) : v = 3 := by
  unfold handler at h
  split_ifs at h
  assumption

theorem prints_handler_iff {v : Nat} : (handler v).prints = true ↔ v < 31 ∧ v ∉ [3, 14] := by
  have small : ∀ v < 31, (handler v).prints = true ↔ v ∉ [3, 14] := by decide
  refine ⟨fun prints => ?_, fun ⟨below, other⟩ => (small v below).mpr other⟩
  have below : v < 31 := by
    by_contra big
    by_cases isPing : v = 0x80
    · simp [handler, isPing, Handler.prints] at prints
    · simp [handler, isPing, Nat.not_lt.mp big, Handler.prints] at prints
  exact ⟨below, (small v below).mp prints⟩

/-- The gates expect a status where the processor pushes one, but for two exceptions. -/
theorem expectsStatus_handler {v : Nat} (prints : (handler v).prints = true) :
    (handler v).expectsStatus = (pushesStatus v && decide (v ∉ [21, 29])) := by
  have small : ∀ v < 31, v ∉ [3, 14] →
      (handler v).expectsStatus = (pushesStatus v && decide (v ∉ [21, 29])) := by decide
  obtain ⟨below, other⟩ := prints_handler_iff.mp prints
  exact small v below other

end Idt

/-! ### The frame -/

/-- What the processor knows about an exception or interrupt. -/
structure Raised where
  vector : Nat
  status : BitVec 64
  rip : BitVec 64
  cs : BitVec 64
  rflags : BitVec 64
  rsp : BitVec 64
  ss : BitVec 64

namespace Raised

/-- The words that are pushed, from the top of the stack. -/
def pushed (r : Raised) : List Nat :=
  [r.ss.toNat, r.rsp.toNat, r.rflags.toNat, r.cs.toNat, r.rip.toNat] ++
    if Idt.pushesStatus r.vector then [r.status.toNat] else []

/-- The frame as the gates find it. -/
def frame (r : Raised) : List Nat :=
  [r.rip.toNat, r.cs.toNat, r.rflags.toNat, r.rsp.toNat, r.ss.toNat]

/-- The word that the gate of an exception takes for the code segment. -/
def segment (r : Raised) : Nat := if r.vector ∈ [21, 29] then r.rip.toNat else r.cs.toNat

theorem segment_ne_iff (r : Raised) (user : r.cs.toNat % 4 = 3) :
    r.segment % 4 ≠ 0 ↔ (r.vector ∈ [21, 29] → r.rip.toNat % 4 ≠ 0) := by
  rw [segment]
  split
  next shifted => exact ⟨fun h _ => h, fun h => h shifted⟩
  next read => exact iff_of_true (by omega) fun shifted => absurd shifted read

end Raised

/-- A push of the processor. -/
def hardwarePush (s : State) (n : Nat) : State :=
  (s.put (s.regs rsp - 8) n).set rsp (s.regs rsp - 8)

/-- The gates name the first interrupt stack, so that the processor starts at its top. -/
def KernelCore.raise (K : KernelCore) (r : Raised) (s : State) : State :=
  r.pushed.foldl hardwarePush (s.set rsp K.stackTop)

variable {K : KernelCore} {E : Env CppFunction StackTrap} {s : State} {k : Context}
variable {words : List Nat}

/-- In a gate with these words on the stack. -/
abbrev Top (K : KernelCore) (k : Context) (words : List Nat) : State → Prop :=
  K.On k (K.Stacked words)

theorem Top.empty (inside : K.In k s) : Top K k [] (s.set rsp K.stackTop) where
  inside := inside.outer rfl rfl rfl
  stack := ⟨by simpa using word_of_lt K.stackBound, fun _ h => absurd h (Nat.not_lt_zero _)⟩

theorem Top.push (sound : K.Sound E) (h : Top K k words s) (room : words.length < 0x100) (n : Nat) :
    Top K k (n :: words) (hardwarePush s n) := by
  have bound := K.stackBound
  have size := K.stackRoom
  have pointer := h.stack.pointer
  have lower : (hardwarePush s n).regs rsp = s.regs rsp - 8 := by
    simpa [hardwarePush] using word_of_lt (n := s.regs rsp - 8) (by omega)
  refine ⟨?_, ?_, fun i inRange => ?_⟩
  · have free := sound.notMem_of_stack (a := s.regs rsp - 8) (by omega) (by omega)
    exact (h.inside.put n free).outer rfl rfl rfl
  · rw [lower, List.length_cons]
    omega
  · rw [lower]
    cases i with
    | zero => simp [hardwarePush]
    | succ i =>
        have place : s.regs rsp - 8 + 8 * (i + 1) = s.regs rsp + 8 * i := by omega
        have ne : s.regs rsp + 8 * i ≠ s.regs rsp - 8 := by omega
        rw [place, List.getElem_cons_succ]
        simpa [hardwarePush, Function.update_of_ne ne] using
          h.stack.stored i (Nat.lt_of_succ_lt_succ inRange)

theorem Top.pushes (sound : K.Sound E) (list : List Nat) (h : Top K k words s)
    (room : words.length + list.length < 0x100) :
    Top K k (list.reverse ++ words) (list.foldl hardwarePush s) := by
  induction list generalizing words s with
  | nil => exact h
  | cons n list ih =>
      rw [List.length_cons] at room
      rw [List.foldl_cons, List.reverse_cons, List.append_assoc, List.singleton_append]
      exact ih (h.push sound (by omega) n) (by rw [List.length_cons]; omega)

theorem Top.raise (sound : K.Sound E) (inside : K.In k s) (r : Raised) :
    Top K k (if Idt.pushesStatus r.vector then r.status.toNat :: r.frame else r.frame)
      (K.raise r s) := by
  have pushed := (Top.empty inside).pushes sound r.pushed (by
    unfold Raised.pushed
    split <;> simp)
  have order : r.pushed.reverse ++ [] =
      if Idt.pushesStatus r.vector then r.status.toNat :: r.frame else r.frame := by
    unfold Raised.pushed
    split <;> rfl
  rwa [order] at pushed

theorem KernelCore.Stacked.read {memory : Nat → Nat} {sp i : Nat} (h : K.Stacked words memory sp)
    (inRange : i < words.length) : memory (word (sp + 8 * i)) = words[i] := by
  have := h.pointer
  have := K.stackBound
  rw [word_of_lt (by omega)]
  exact h.stored i inRange

end Monza
