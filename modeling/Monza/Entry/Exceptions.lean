import Monza.Entry.Context

/-!
# What is reported about an exception

All exceptions but the breakpoint and the page fault end in `print_and_halt`, which takes the
status, the instruction and the code segment from the frame of the processor. Gates of exceptions
without a status push one first.

The processor pushes a status for two more exceptions than the gates expect, both of which have the
gate of the reserved ones. Their frame is read one word too low.

After the report the gates jump to `shutdown`. That is the address of a variable which holds the
address of a function; the entry point of the kernel jumps through it, the gates jump to it. Runs in
which a gate is interrupted are left out.
-/

namespace Monza

open X86 X86.Reg Asm

/-- What `print_exception` is called with, and the table it is called under. -/
structure Report where
  text : Nat
  code : Nat
  rip : Nat
  root : Nat
  deriving DecidableEq, Repr

/-- The last thing that is done is to call `print_exception` with a report. -/
def Reports (E : Env CppFunction StackTrap) (report : Report) (t : State) : Prop :=
  ∃ s, t = E.callee .printException s ∧
    (⟨s.regs rdi, s.regs rsi, s.regs rdx, s.cr3⟩ : Report) = report

/-- The report that is meant: the text of the exception, its status if it has one, the instruction
that raised it; under the table of the kernel if it came from a compartment. -/
def Raised.report (r : Raised) (K : KernelCore) (address : Idt.Handler → BitVec 64) (root : Nat) :
    Report where
  text := (address (Idt.handler r.vector)).toNat
  code := if Idt.pushesStatus r.vector then r.status.toNat else 0
  rip := r.rip.toNat
  root := K.rootFor r.cs.toNat root

/-- The report of a frame that is read one word too low. -/
def Raised.shiftedReport (r : Raised) (K : KernelCore) (address : Idt.Handler → BitVec 64)
    (root : Nat) : Report where
  text := (address .reserved).toNat
  code := 0
  rip := r.status.toNat
  root := K.rootFor r.rip.toNat root

variable {K : KernelCore} {E : Env CppFunction StackTrap} {s : State} {k : Context}
variable {words : List Nat}

/-- The gates up to the jump to `shutdown`. -/
def report (S : Symbols) (message : Nat) : Routine :=
  .seq (setKernelCr3 S intCsOffset) (.block [.mov rdi (imm message),
    .mov rsi (mem rsp intErrOffset), .mov rdx (mem rsp intRipOffset), .call .printException])

theorem exec_printAndHalt (S : Symbols) (message : Nat) (c : KernelConfig) :
    (printAndHalt S message).exec E c =
      (Code.jump S.shutdown).exec E ((report S message).exec E c) := by
  simp only [printAndHalt, report, Code.exec_seq]

theorem report_stays (S : Symbols) (message : Nat) : (report S message).stays = true := by
  simp only [report, setKernelCr3, Code.stays, Code.stays_block, Bool.and_self]

theorem report_spec {w₀ w₁ w₂ : Nat} (text : BitVec 64) (code : w₀ < 2 ^ 64)
    (rip : w₁ < 2 ^ 64) :
    Spec E unwatched (Top K k (w₀ :: w₁ :: w₂ :: words)) (report K.symbols text.toNat)
      (Reports E ⟨text.toNat, w₀, w₁, K.rootFor w₂ k.cr3⟩) := by
  refine KernelCore.setKernelCr3_frame.seq (.block fun t h => ?_)
  have first : t.memory (word (t.regs rsp + intErrOffset)) = w₀ := h.stack.read (i := 0) (by simp)
  have second : t.memory (word (t.regs rsp + intRipOffset)) = w₁ := h.stack.read (i := 1) (by simp)
  have root : t.cr3 = K.rootFor w₂ k.cr3 := congrArg Context.cr3 h.inside.context
  refine ⟨rfl, fun _ _ => trivial, rfl, fun _ _ => trivial, rfl, fun _ _ => trivial, rfl,
    fun _ _ => trivial, _, rfl, ?_⟩
  simp [first, second, word_of_lt code, word_of_lt rip, word_of_lt text.isLt, root]

/-- A gate reports and jumps. -/
theorem exec_of_report {code body : Routine} {pre : State → Prop} {report : Report}
    (last : ∀ c : KernelConfig,
      code.exec E c = (Code.jump K.symbols.shutdown).exec E (body.exec E c))
    (spec : Spec E unwatched pre body (Reports E report)) (stays : body.stays = true)
    (h : pre s) :
    (code.exec E ⟨s, [], .running⟩).status = .jumped K.symbols.shutdown ∧
      Reports E report (code.exec E ⟨s, [], .running⟩).state := by
  obtain ⟨t, log, run, done⟩ := spec.completes stays h (List.forall_mem_nil _)
  rw [last, run]
  exact ⟨rfl, done⟩

/-- A gate with a status takes it from the top of the frame. -/
theorem reports_printAndHalt {w₀ w₁ w₂ : Nat} (h : Top K k (w₀ :: w₁ :: w₂ :: words) s)
    (text : BitVec 64) (code : w₀ < 2 ^ 64) (rip : w₁ < 2 ^ 64) :
    ((printAndHalt K.symbols text.toNat).exec E ⟨s, [], .running⟩).status =
        .jumped K.symbols.shutdown ∧
      Reports E ⟨text.toNat, w₀, w₁, K.rootFor w₂ k.cr3⟩
        ((printAndHalt K.symbols text.toNat).exec E ⟨s, [], .running⟩).state :=
  exec_of_report (exec_printAndHalt _ _) (report_spec text code rip) (report_stays _ _) h

/-- A gate without a status takes the top of the frame for the instruction. -/
theorem reports_printAndHaltNoStatus (sound : K.Sound E) {w₁ w₂ : Nat}
    (h : Top K k (w₁ :: w₂ :: words) s) (short : words.length ≤ 4) (text : BitVec 64)
    (rip : w₁ < 2 ^ 64) :
    ((printAndHaltNoStatus K.symbols text.toNat).exec E ⟨s, [], .running⟩).status =
        .jumped K.symbols.shutdown ∧
      Reports E ⟨text.toNat, 0, w₁, K.rootFor w₂ k.cr3⟩
        ((printAndHaltNoStatus K.symbols text.toNat).exec E ⟨s, [], .running⟩).state := by
  have spec : Spec E unwatched (Top K k (w₁ :: w₂ :: words))
      (.seq (.block [.push (imm 0)]) (report K.symbols text.toNat))
      (Reports E ⟨text.toNat, 0, w₁, K.rootFor w₂ k.cr3⟩) :=
    (KernelCore.pushStatus_spec sound (by simp only [List.length_cons]; omega)).seq
      (report_spec text (by decide) rip)
  refine exec_of_report (fun c => ?_) spec ?_ h
  · simp only [printAndHaltNoStatus, Code.exec_seq, exec_printAndHalt]
  · rw [Code.stays, Code.stays_block, report_stays, Bool.and_self]

/-! ### All exceptions -/

/-- **Every exception but the breakpoint and the page fault is reported** with its text, its status
and the instruction that raised it; except that the exceptions 21 and 29 are reported with their
status as the instruction, and that for them the instruction decides under which table this happens.
Control then goes to the variable `shutdown` itself, not to the function whose address it holds. -/
theorem exceptions_are_reported (sound : K.Sound E) (inside : K.In k s) (r : Raised)
    (address : Idt.Handler → BitVec 64) (exception : r.vector < 31) (prints : r.vector ∉ [3, 14]) :
    (K.gate E address r s []).status = .jumped K.symbols.shutdown ∧
      Reports E (if r.vector ∈ [21, 29] then r.shiftedReport K address k.cr3
        else r.report K address k.cr3) (K.gate E address r s []).state := by
  have top := Top.raise sound inside r
  have printed := Idt.prints_handler_iff.mpr ⟨exception, prints⟩
  have expects := Idt.expectsStatus_handler printed
  rw [KernelCore.gate, KernelCore.gateCode, Idt.Handler.entry_of_prints _ printed]
  by_cases shifted : r.vector ∈ [21, 29]
  · have both : ∀ v ∈ [21, 29], Idt.pushesStatus v = true ∧ Idt.handler v = .reserved := by decide
    obtain ⟨status, reserved⟩ := both _ shifted
    rw [status, if_pos rfl] at top
    rw [reserved, if_pos shifted]
    exact reports_printAndHaltNoStatus sound top (by simp) _ r.status.isLt
  · rw [decide_eq_true shifted, Bool.and_true] at expects
    rw [expects, if_neg shifted, Raised.report]
    cases status : Idt.pushesStatus r.vector with
    | true =>
        rw [status, if_pos rfl] at top
        exact reports_printAndHalt top _ r.status.isLt r.rip.isLt
    | false =>
        rw [status, if_neg Bool.false_ne_true] at top
        exact reports_printAndHaltNoStatus sound top (by simp) _ r.rip.isLt

namespace KernelCore

/-- A gate of the sample core. -/
def sampleReport (vector : Nat) : KernelConfig :=
  sampleCore.gate sampleEnv (fun _ => 0x700) (sampleRaised vector) (sampleEntry 0x9800 0xBAD 0xBAD)
    []

/-- A general protection fault is reported as it should be; a fault of control protection is
reported at an instruction `0x33`, and under the table of the compartment. -/
theorem exceptions_are_reported_sample :
    ((sampleReport 13).status = .jumped 0x410 ∧
      Reports sampleEnv ⟨0x700, 0x33, 0x1000, 0x5000⟩ (sampleReport 13).state) ∧
    (sampleReport 21).status = .jumped 0x410 ∧
      Reports sampleEnv ⟨0x700, 0, 0x33, 0x4000⟩ (sampleReport 21).state := by
  have inside := (sampleEntry_fromCompartment 0x9800 0xBAD 0xBAD).inside
  exact ⟨exceptions_are_reported sampleCore_sound inside (sampleRaised 13) _ (by decide)
      (by decide),
    exceptions_are_reported sampleCore_sound inside (sampleRaised 21) _ (by decide) (by decide)⟩

end KernelCore

end Monza
