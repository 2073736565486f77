import Monza.Lib.X86

/-!
# The assembly at the boundary of the kernel

The routines by which a core enters the kernel: the system call, the page fault and
breakpoint gates, the gates that print and halt, and the wakeup interrupt. They follow
the assembly line by line, macro by macro; jumps within a macro are branches.

Operands relative to the address of the per-core data or of the local APIC are watched,
as are `gs`-relative operands and calls of C++ functions. The one trap that is modelled is
that of the first push of the system call, which still uses the stack of the compartment.
-/

namespace Monza

open X86 X86.Reg

inductive KernelData where
  | perCore
  | localApic
  deriving DecidableEq, Repr

inductive CppFunction where
  | printException
  | pageFaultHandler
  | forwardExit
  | forwardAllocChunk
  | forwardAllocMetaData
  | forwardDeallocChunk
  | forwardCallback
  deriving DecidableEq, Repr

/-- Addresses of variables and labels. -/
structure Symbols where
  kernelPagetable : Nat
  perCoreData : Nat
  localApicMapping : Nat
  loopSuspend : Nat
  loopHlt : Nat
  compartmentStub : Nat
  exString03 : Nat
  shutdown : Nat

abbrev Asm := Instr KernelData CppFunction

abbrev Routine := Code KernelData CppFunction

namespace Asm

abbrev imm (n : Nat) : Operand KernelData := .imm n

abbrev reg (r : Reg) : Operand KernelData := .reg r

/-- `[sym]`. -/
abbrev var (a : Nat) : Operand KernelData := .place (.fixed a)

/-- `[r + offset]` outside watched data. -/
abbrev mem (r : Reg) (offset : Nat) : Operand KernelData := .place (.based r offset)

/-- `[r + offset]` where the register points into the per-core data. -/
abbrev coreData (r : Reg) (offset : Nat) : Place KernelData := .watched .perCore r offset

end Asm

open Asm

def pcdSelfOffset : Nat := 0
def pcdNotGenOffset : Nat := 0x10
def pcdTecOffset : Nat := 0x18
def pcdLog2Size : Nat := 7

def tecTlsOffset : Nat := 0x10
def tecLastSpOffset : Nat := 0x28

def intErrOffset : Nat := 0
def intRipOffset : Nat := 0x8
def intCsOffset : Nat := 0x10

def trapRegsEnd : Nat := 0x78

/-- The slots of a trap frame. -/
def trapSlots : List (Nat × Reg) :=
  [(0x0, rdi), (0x8, rsi), (0x10, rdx), (0x18, rcx), (0x20, r8), (0x28, r9), (0x30, r10),
    (0x38, r11), (0x40, rbx), (0x48, rbp), (0x50, r12), (0x58, r13), (0x60, r14), (0x68, r15),
    (0x70, rax)]

/-- The slots of the callee-saved registers. -/
def savedSlots : List (Nat × Reg) :=
  [(0x0, rbx), (0x8, rbp), (0x10, r12), (0x18, r13), (0x20, r14), (0x28, r15)]

section Macros

def getPerCoreDataAddress (r : Reg) (offset : Nat) : List Asm :=
  [.mov r (.place (.gs pcdSelfOffset)), .alu .add r (imm offset)]

def getThreadExecutionContextEntry (r : Reg) : List Asm := getPerCoreDataAddress r pcdTecOffset

def saveRegs : List Asm :=
  .alu .sub rsp (imm trapRegsEnd) ::
    trapSlots.map fun slot => .store (.based rsp slot.1) (reg slot.2)

def restoreRegs : List Asm :=
  (trapSlots.map fun slot => .mov slot.2 (mem rsp slot.1)) ++ [.alu .add rsp (imm trapRegsEnd)]

variable (S : Symbols)

def setKernelCr3 (csOffset : Nat) : Routine :=
  .seq (.block [.mov rax (mem rsp csOffset), .alu .and rax (imm 3), .test rax])
    (.ite .zero .skip (.block [.mov rax (var S.kernelPagetable), .writeCr3 rax]))

def swapKernelCr3 (r : Reg) (csOffset : Nat) : Routine :=
  .seq (.block [.mov r (mem rsp csOffset), .alu .and r (imm 3), .test r])
    (.ite .zero (.block [.alu .xor r (reg r)])
      (.block [.readCr3 r, .mov rax (var S.kernelPagetable), .writeCr3 rax]))

def restoreSwappedCr3 (r : Reg) : Routine :=
  .seq (.block [.test r]) (.ite .zero .skip (.block [.writeCr3 r]))

def resetPerCorePointer : List Asm :=
  [.str rax, .alu .sub rax (imm 0x33), .alu .shr rax (imm 4), .alu .shl rax (imm pcdLog2Size),
    .alu .add rax (var S.perCoreData), .wrgsbase rax]

def resetSuspendCheck (ripOffset : Nat) : Routine :=
  .seq (.block [.mov rax (mem rsp ripOffset), .cmp rax (imm S.loopSuspend)])
    (.ite .less .skip
      (.seq (.block [.cmp rax (imm S.loopHlt)])
        (.ite .notLess .skip (.block [.store (.based rsp ripOffset) (imm S.loopSuspend)]))))

def interruptPrelude : Routine :=
  .seq (.block saveRegs) <|
  .seq (swapKernelCr3 S rbx (trapRegsEnd + intCsOffset)) <|
  .block (resetPerCorePointer S ++ [.rdfsbase rbp] ++ getThreadExecutionContextEntry r10 ++
    [.mov rax (.place (coreData r10 tecTlsOffset)), .wrfsbase rax])

def interruptPreludeNoStatus : Routine :=
  .seq (.block [.push (imm 0)]) (interruptPrelude S)

def interruptConclusion : Routine :=
  .seq (restoreSwappedCr3 rbx) <|
  .seq (.block [.wrfsbase rbp]) <|
  .seq (resetSuspendCheck S (trapRegsEnd + intRipOffset)) <|
  .seq (.block (restoreRegs ++ [.alu .add rsp (imm 8)])) .leave

/-- The message is the address of its text. The jump is to the variable `shutdown` itself, not to
the function that it points to. -/
def printAndHalt (message : Nat) : Routine :=
  .seq (setKernelCr3 S intCsOffset) <|
  .seq (.block [.mov rdi (imm message), .mov rsi (mem rsp intErrOffset),
    .mov rdx (mem rsp intRipOffset), .call .printException]) (.jump S.shutdown)

def printAndHaltNoStatus (message : Nat) : Routine :=
  .seq (.block [.push (imm 0)]) (printAndHalt S message)

end Macros

section Routines

variable (S : Symbols)

def exceptionGateBreakpoint : Routine :=
  .seq (interruptPreludeNoStatus S) <|
  .seq (.block [.mov rdi (imm S.exString03), .mov rsi (mem rsp (trapRegsEnd + intErrOffset)),
    .mov rdx (mem rsp (trapRegsEnd + intRipOffset)), .call .printException])
  (interruptConclusion S)

def exceptionGatePagefault : Routine :=
  .seq (interruptPrelude S) <|
  .seq (.block [.readCr2 rdi, .mov rsi (reg rbx), .mov rdx (reg rsp), .call .pageFaultHandler])
  (interruptConclusion S)

def wakeupHandler : Routine :=
  .seq (.block ([.push (reg rdi), .push (reg rax)] ++ getPerCoreDataAddress rdi pcdNotGenOffset ++
    [.inc (coreData rdi 0)])) <|
  .seq (resetSuspendCheck S 0x10) <|
  .seq (.block [.mov rdi (var S.localApicMapping), .alu .xor rax (reg rax),
    .store (.watched .localApic rdi 0xB0) (reg rax), .pop rax, .pop rdi]) .leave

def restoreKernelState (lastSp compartment : Reg) : List Asm :=
  [.pop compartment, .pop lastSp, .popf] ++
    (savedSlots.map fun slot => .mov slot.2 (mem rsp slot.1)) ++ [.alu .add rsp (imm 0x30)]

/-- Back to the compartment whose object `rdx` points to, by `sysret`. -/
def compartmentResume : Routine :=
  .seq (.block [.mov rax (mem rdx 0x8), .wrfsbase rax, .mov rax (mem rdx 0x0), .writeCr3 rax,
    .mov rax (reg rdi), .mov rcx (imm S.compartmentStub), .mov r11 (imm 0x202)]) .leave

/-- A system call that is forwarded to the compartment object. -/
def forwardCall (f : CppFunction) : Routine :=
  .seq (.block [.mov rdi (mem rsp 0), .push (reg r11), .call f]) <|
  .seq (.block [.pop r11, .mov rdi (reg rax), .mov rsi (reg r11), .mov rdx (mem rsp 0)])
  (compartmentResume S)

/-- Compare the reason in `rdi` and go on with `other` if it is another one. -/
def onReason (reason : Nat) (handle other : Routine) : Routine :=
  .seq (.block [.cmp rdi (imm reason)]) (.ite .notZero other handle)

/-- From the reset of the per-core pointer to the kernel's thread-local storage. -/
def kernelEnterContext : List Asm :=
  resetPerCorePointer S ++ getThreadExecutionContextEntry r10 ++
    [.mov r11 (reg rsp), .mov rsp (.place (coreData r10 tecLastSpOffset)),
      .mov rax (.place (coreData r10 tecTlsOffset)), .wrfsbase rax]

def kernelEnterDispatch : Routine :=
  onReason 1
    (.seq (.block (restoreKernelState r11 rax ++
      [.store (coreData r10 tecLastSpOffset) (reg r11), .mov rax (imm 1)])) .leave) <|
  onReason 2 (forwardCall S .forwardAllocChunk) <|
  onReason 3 (forwardCall S .forwardAllocMetaData) <|
  onReason 4 (forwardCall S .forwardDeallocChunk) <|
  onReason 5 (forwardCall S .forwardCallback) <|
  .seq (.block (restoreKernelState r11 rdi ++
    [.store (coreData r10 tecLastSpOffset) (reg r11), .call .forwardExit, .mov rax (imm 0)])) .leave

def kernelEnter : Routine :=
  .seq (.block [.push (reg r11), .mov rcx (reg r10), .mov rax (var S.kernelPagetable),
    .writeCr3 rax]) <|
  .seq (.block (kernelEnterContext S)) (kernelEnterDispatch S)

end Routines

/-- The ways into the kernel. Some of the gates that print take a status from the stack; the others
push one. -/
inductive Entry where
  | kernelEnter
  | pagefault
  | breakpoint
  | printAndHalt (status : Bool) (message : Nat)
  | wakeup
  | nopInterrupt
  deriving DecidableEq, Repr

namespace Entry

def code (S : Symbols) : Entry → Routine
  | kernelEnter => Monza.kernelEnter S
  | pagefault => exceptionGatePagefault S
  | breakpoint => exceptionGateBreakpoint S
  | printAndHalt true message => Monza.printAndHalt S message
  | printAndHalt false message => printAndHaltNoStatus S message
  | wakeup => wakeupHandler S
  | nopInterrupt => .leave

end Entry

/-- The exceptions a push can raise. -/
inductive StackTrap where
  | pageFault
  | stackFault
  deriving DecidableEq, Repr

def StackTrap.vector : StackTrap → Nat
  | pageFault => 14
  | stackFault => 12

/-- Where the code of the kernel is. -/
abbrev KernelConfig := Config KernelData CppFunction StackTrap

end Monza
