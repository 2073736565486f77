import Monza.Entry.Macros

/-!
# The kernel context on entry from a compartment

A compartment chooses `gs`, `fs` and all general registers, and its page table is
installed when it enters the kernel. Whatever the kernel then does with per-core data,
the local APIC or C++ code should happen under its own table, with `gs` at the data of
the core, and for C++ code with `fs` at the kernel's thread-local storage.

The page fault and breakpoint gates do that. The gates that print and halt only switch
the page table, and two of them decide by the wrong word whether to. The wakeup interrupt
switches nothing. The system call pushes to the stack of the compartment first: if that
traps, the gate of the trap sees an entry from the kernel and keeps the table of the
compartment; the same happens if the compartment has set the trap flag.

The runs are those in which the entry code is not interrupted. The gates of exceptions do not
hold pings off, and neither does the system call. A ping is therefore looked at by itself:
wherever it is taken, it needs the table and `gs` of the kernel.
-/

namespace Monza

open X86 X86.Reg Asm

/-- What the processor pushes when an exception is raised in the kernel, besides the stack pointer
and the code segment. -/
structure KernelFrame where
  status : BitVec 64
  rip : BitVec 64
  rflags : BitVec 64
  ss : BitVec 64

def KernelFrame.raised (f : KernelFrame) (vector : Nat) (s : State) : Raised :=
  ⟨vector, f.status, f.rip, 0x8, f.rflags, BitVec.ofNat 64 (s.regs rsp), f.ss⟩

theorem KernelFrame.cs_raised (f : KernelFrame) {vector : Nat} {s : State} :
    (f.raised vector s).cs.toNat % 4 = 0 := by
  change (0x8 : BitVec 64).toNat % 4 = 0
  decide

theorem KernelFrame.segment_raised (f : KernelFrame) {vector : Nat} {s : State}
    (read : vector ∉ [21, 29]) : (f.raised vector s).segment % 4 = 0 := by
  have segment : (f.raised vector s).segment = (f.raised vector s).cs.toNat := if_neg read
  rw [segment, f.cs_raised]

/-- How a core leaves a compartment. The system call keeps the trap flag, and then a debug exception
comes before its first instruction; `frame` is what an exception inside of it pushes. -/
inductive Way where
  | systemCall (singleStep : Bool) (frame : KernelFrame)
  | gate (r : Raised)

/-- The code segment that the processor pushes is that of a compartment. -/
def Way.FromUser : Way → Prop
  | systemCall _ _ => True
  | gate r => r.cs.toNat % 4 = 3

namespace KernelCore

section Run

variable (K : KernelCore) (E : Env CppFunction StackTrap) (text : Idt.Handler → BitVec 64)

/-- A core runs a compartment. -/
structure FromCompartment (s : State) : Prop where
  foreign : s.cr3 ≠ K.kernelPagetable
  task : s.tr = K.taskRegister
  words : K.Words s.memory

def gateCode (vector : Nat) : Routine := ((Idt.handler vector).entry text).code K.symbols

/-- Enter the gate of an exception or interrupt, with what was seen before. -/
def gate (r : Raised) (s : State) (log : List (Sighting KernelData CppFunction)) :
    KernelConfig :=
  (K.gateCode text r.vector).exec E ⟨K.raise r s, log, .running⟩

/-- Enter the gate of the exception with which the system call has ended, if it has. -/
def handleTrap (frame : KernelFrame) (c : KernelConfig) : KernelConfig :=
  match c.status with
  | .trapped t => K.gate E text (frame.raised t.vector c.state) c.state c.log
  | _ => c

/-- Enter the kernel. -/
def enter (w : Way) (s : State) : KernelConfig :=
  match w with
  | .systemCall true frame => K.gate E text (frame.raised 1 s) s []
  | .systemCall false frame =>
      K.handleTrap E text frame ((kernelEnter K.symbols).exec E ⟨s, [], .running⟩)
  | .gate r => K.gate E text r s []

end Run

variable {K : KernelCore} {E : Env CppFunction StackTrap} {text : Idt.Handler → BitVec 64}
variable {s : State} {k : Context} {cs : Nat}

/-! ### The routines -/

/-- Entered from a compartment, the prelude establishes the whole context. -/
theorem interruptPrelude_spec (sound : K.Sound E) (user : cs % 4 ≠ 0) :
    Spec E K.Good (K.Framed k cs) (interruptPrelude K.symbols)
      K.InKernel := by
  have root : K.rootFor cs k.cr3 = K.kernelPagetable := if_neg user
  refine .assoc ((preludeStart_spec sound).seq ?_)
  rw [root]
  exact preludeContext_spec rfl

/-- Entered from the kernel under another table, it looks at `gs` under that table. -/
theorem interruptPrelude_sees (sound : K.Sound E) (kernel : cs % 4 = 0) :
    Sees E (fun o => o.context.cr3 = k.cr3) (K.Framed k cs)
      (interruptPrelude K.symbols) := by
  have root : K.rootFor cs k.cr3 = k.cr3 := if_pos kernel
  refine .assoc (.second (preludeStart_spec sound) rfl ?_)
  rw [root]
  refine .block_append (.first (.block_append (.second resetKeepingTls_spec rfl
    (.first (.instr fun s h => ?_)))))
  have root : s.cr3 = k.cr3 := congrArg Context.cr3 h.context
  exact ⟨.gs, by simp, root⟩

/-- Steady code, once the context is in place. -/
theorem steady_spec (sound : K.Sound E) (is : List Asm) (steady : is.all Instr.steady = true) :
    Spec E K.Good K.InKernel (.block is)
      K.InKernel :=
  .steady good_kernelContext (List.all_eq_true.mp steady)
    fun i _ _ hs => trap_eq_none_of_kernelContext sound i hs

/-- Steady code up to a call, and quiet code behind it. -/
theorem call_spec (sound : K.Sound E) (before after : List Asm) {f : CppFunction}
    (steady : before.all Instr.steady = true) (quiet : (Code.block after).quiet = true) :
    Spec E K.Good K.InKernel (.block (before ++ .call f :: after))
      (fun _ => True) := by
  have call : Spec E K.Good K.InKernel (.instr (.call f))
      (fun _ => True) := by
    refine .instr fun s hs => ⟨rfl, fun w _ => ?_, trivial⟩
    rw [State.sighting, hs]
    exact good_kernelContext w
  exact .block_append (steady_spec sound before steady) (call.seq (.quiet quiet))

variable {words : List Nat} {w₀ w₁ : Nat}

/-- Printing an exception when `gs` and `fs` are already the kernel's. -/
theorem printAndHalt_spec (sound : K.Sound E) {message : Nat} (user : cs % 4 ≠ 0)
    (gs : k.gsBase = K.perCore) (fs : k.fsBase = K.kernelTls) :
    Spec E K.Good (Top K k (w₀ :: w₁ :: cs :: words)) (printAndHalt K.symbols message)
      (fun _ => True) := by
  have context : { k with cr3 := K.rootFor cs k.cr3 } = K.kernelContext := by
    rw [rootFor, if_neg user, gs, fs]
    rfl
  exact .seq (setKernelCr3_frame.weaken (fun _ h => h) fun _ h => h.inside.context.trans context)
    (.seq (call_spec sound [_, _, _] [] rfl rfl) .jump)

/-- It is printed in the context of the entry, but for the table. -/
theorem printAndHalt_sees (message : Nat) :
    Sees E (fun o => o = ⟨.call .printException, { k with cr3 := K.rootFor cs k.cr3 }⟩)
      (Top K k (w₀ :: w₁ :: cs :: words)) (printAndHalt K.symbols message) := by
  have call : Sees E (fun o => o = ⟨.call .printException, { k with cr3 := K.rootFor cs k.cr3 }⟩)
      (fun s => s.context = { k with cr3 := K.rootFor cs k.cr3 })
      (.block ([.mov rdi (imm message), .mov rsi (mem rsp intErrOffset),
        .mov rdx (mem rsp intRipOffset)] ++ [.call .printException])) := by
    refine .block_append (.second (.steady (fun _ => trivial) (List.all_eq_true.mp rfl)
      fun i hi s _ => ?_) rfl (.first (.instr fun s hs => ⟨.call .printException, by simp, ?_⟩)))
    · refine Instr.trap_eq_none ?_ s
      revert i
      simp [Instr.canTrap]
    · rw [State.sighting, hs]
  exact .second (setKernelCr3_frame.weaken (fun _ h => h) fun _ h => h.inside.context) rfl
    (.first call)

theorem onReason_spec {reason : Nat} {handle other : Routine}
    (handled : Spec E K.Good K.InKernel handle fun _ => True)
    (passed : Spec E K.Good K.InKernel other fun _ => True) :
    Spec E K.Good K.InKernel (onReason reason handle other)
      (fun _ => True) := by
  have compared : Spec E K.Good K.InKernel
      (.block [.cmp rdi (imm reason)]) K.InKernel :=
    .block fun s h => ⟨rfl, by simp, h⟩
  refine .seq compared (.ite ?_ ?_)
  · exact passed.weaken (fun _ h => h.1) fun _ h => h
  · exact handled.weaken (fun _ h => h.1) fun _ h => h

theorem forwardCall_spec (sound : K.Sound E) (f : CppFunction) :
    Spec E K.Good K.InKernel (forwardCall K.symbols f)
      (fun _ => True) :=
  .seq (call_spec sound [_, _] [] rfl rfl) (.quiet rfl)

theorem kernelEnterDispatch_spec (sound : K.Sound E) :
    Spec E K.Good K.InKernel (kernelEnterDispatch K.symbols)
      (fun _ => True) := by
  have returned := steady_spec sound (restoreKernelState r11 rax ++
    [.store (coreData r10 tecLastSpOffset) (reg r11), .mov rax (imm 1)]) rfl
  have exit := call_spec sound (f := .forwardExit)
    (restoreKernelState r11 rdi ++ [.store (coreData r10 tecLastSpOffset) (reg r11)])
    [.mov rax (imm 0)] rfl rfl
  refine onReason_spec (returned.seq .leave) <|
    onReason_spec (forwardCall_spec sound _) <| onReason_spec (forwardCall_spec sound _) <|
    onReason_spec (forwardCall_spec sound _) <| onReason_spec (forwardCall_spec sound _) ?_
  exact .seq exit .leave

theorem kernelEnter_spec (sound : K.Sound E) (foreign : k.cr3 ≠ K.kernelPagetable) :
    Spec E K.Good (fun s => K.In k s ∧ E.pushTrap s.cr3 s.pushAddress = none)
      (kernelEnter K.symbols) (fun _ => True) :=
  (kernelEnterStart_spec sound foreign).seq
    ((kernelEnterContext_spec rfl).seq (kernelEnterDispatch_spec sound))

/-- A push that traps ends the system call before anything is seen. -/
theorem kernelEnter_trapped {t : StackTrap} (trap : E.pushTrap s.cr3 s.pushAddress = some t) :
    (kernelEnter K.symbols).exec E ⟨s, [], .running⟩ = ⟨s, [], .trapped t⟩ := by
  have first : (Code.instr (.push (reg r11)) : Routine).exec E ⟨s, [], .running⟩ =
      ⟨s, [], .trapped t⟩ := by
    rw [Code.exec_instr]
    simp only [Instr.trap, trap]
    rfl
  exact Code.exec_seq_of_trapped _ (Code.exec_seq_of_trapped _ first)

theorem handleTrap_of_not_trapped {frame : KernelFrame} {c : KernelConfig}
    (h : ∀ t, c.status ≠ .trapped t) : K.handleTrap E text frame c = c := by
  rw [handleTrap]
  split
  next t trapped => exact absurd trapped (h t)
  next => rfl

/-! ### The gates and their frames -/

section Gates

variable {r : Raised} (sound : K.Sound E) (inside : K.In k s)

include sound inside

section Print

variable (prints : (Idt.handler r.vector).prints = true)

include prints

/-- A gate with a status finds it below the frame. -/
theorem top_of_expectsStatus (expects : (Idt.handler r.vector).expectsStatus = true) :
    ∃ w₀ w₁ words, Top K k (w₀ :: w₁ :: r.segment :: words) (K.raise r s) := by
  have top := Top.raise sound inside r
  rw [Idt.expectsStatus_handler prints, Bool.and_eq_true, decide_eq_true_eq] at expects
  rw [if_pos expects.1] at top
  rw [Raised.segment, if_neg expects.2]
  exact ⟨_, _, _, top⟩

/-- A gate without one takes the word above the frame's first for the code segment. -/
theorem top_of_not_expectsStatus (expects : (Idt.handler r.vector).expectsStatus = false) :
    ∃ w words, Top K k (w :: r.segment :: words) (K.raise r s) ∧ words.length ≤ 4 := by
  have top := Top.raise sound inside r
  rw [Idt.expectsStatus_handler prints] at expects
  by_cases shifted : r.vector ∈ [21, 29]
  · have both : ∀ v ∈ [21, 29], Idt.pushesStatus v = true := by decide
    rw [if_pos (both _ shifted)] at top
    rw [Raised.segment, if_pos shifted]
    exact ⟨_, _, top, by simp⟩
  · rw [decide_eq_true shifted, Bool.and_true] at expects
    rw [expects, if_neg Bool.false_ne_true] at top
    rw [Raised.segment, if_neg shifted]
    exact ⟨_, _, top, by simp⟩

/-- A gate that prints, entered with `gs` and `fs` of the kernel and with a word in the place of the
code segment that looks like one of a compartment. -/
theorem printGate_spec (user : r.segment % 4 ≠ 0) (gs : k.gsBase = K.perCore)
    (fs : k.fsBase = K.kernelTls) :
    Spec E K.Good (· = K.raise r s) (K.gateCode text r.vector) (fun _ => True) := by
  rw [gateCode, Idt.Handler.entry_of_prints text prints]
  rintro _ log rfl
  cases expects : (Idt.handler r.vector).expectsStatus with
  | true =>
      obtain ⟨_, _, _, top⟩ := top_of_expectsStatus sound inside prints expects
      exact printAndHalt_spec sound user gs fs _ log top
  | false =>
      obtain ⟨_, _, top, short⟩ := top_of_not_expectsStatus sound inside prints expects
      exact (pushStatus_spec sound (by simp; omega)).seq (printAndHalt_spec sound user gs fs) _ log
        top

theorem printGate_sees :
    Sees E (fun o => o = ⟨.call .printException, { k with cr3 := K.rootFor r.segment k.cr3 }⟩)
      (· = K.raise r s) (K.gateCode text r.vector) := by
  rw [gateCode, Idt.Handler.entry_of_prints text prints]
  rintro _ log rfl
  cases expects : (Idt.handler r.vector).expectsStatus with
  | true =>
      obtain ⟨_, _, _, top⟩ := top_of_expectsStatus sound inside prints expects
      exact printAndHalt_sees _ _ log top
  | false =>
      obtain ⟨_, _, top, short⟩ := top_of_not_expectsStatus sound inside prints expects
      exact Sees.second (pushStatus_spec sound (by simp; omega)) rfl (printAndHalt_sees _) _ log top

end Print

theorem pagefaultGate_frame (vector : r.vector = 14) :
    K.Framed k r.cs.toNat (K.raise r s) := by
  have top := Top.raise sound inside r
  rw [vector] at top
  exact .of_top top

theorem pagefaultGate_spec (vector : r.vector = 14) (user : r.cs.toNat % 4 ≠ 0) :
    Spec E K.Good (· = K.raise r s) (exceptionGatePagefault K.symbols) (fun _ => True) := by
  rintro _ log rfl
  exact (interruptPrelude_spec sound user).seq
    (.seq (call_spec sound [_, _, _] [] rfl rfl) (.quiet rfl)) _ log
    (pagefaultGate_frame sound inside vector)

theorem pagefaultGate_sees (vector : r.vector = 14) (kernel : r.cs.toNat % 4 = 0) :
    Sees E (fun o => o.context.cr3 = k.cr3) (· = K.raise r s)
      (exceptionGatePagefault K.symbols) := by
  rintro _ log rfl
  exact Sees.first (interruptPrelude_sees sound kernel) _ log
    (pagefaultGate_frame sound inside vector)

theorem breakpointGate_spec (vector : r.vector = 3) (user : r.cs.toNat % 4 ≠ 0) :
    Spec E K.Good (· = K.raise r s) (exceptionGateBreakpoint K.symbols) (fun _ => True) := by
  have top := Top.raise sound inside r
  rw [vector] at top
  have pushed : Spec E K.Good (Top K k r.frame) (.block [.push (imm 0)])
      (K.Framed k r.cs.toNat) :=
    (pushStatus_spec sound (by simp [Raised.frame])).weaken (fun _ h => h) fun _ h => .of_top h
  rintro _ log rfl
  exact ((pushed.seq (interruptPrelude_spec sound user)).seq
    (.seq (call_spec sound [_, _, _] [] rfl rfl) (.quiet rfl))) _ log top

end Gates

/-! ### Pings -/

/-- What a ping relies on. -/
def Shelter (K : KernelCore) (s : State) : Prop := s.cr3 = K.kernelPagetable ∧ s.gsBase = K.perCore

/-- The handler reads through `gs` at once. -/
theorem wakeupHandler_sees (sound : K.Sound E) (short : words.length ≤ 6) :
    Sees E (fun o => o = ⟨.gs, k⟩) (Top K k words) (wakeupHandler K.symbols) := by
  have pushes : Spec E (fun _ => True) (Top K k words)
      (.block [.push (reg rdi), .push (reg rax)] : Routine) (K.In k) := by
    refine .block fun s h => ?_
    obtain ⟨free, once⟩ := push_of_top sound h (by omega) (reg rdi)
    obtain ⟨still, twice⟩ := push_of_top sound once (by rw [List.length_cons]; omega) (reg rax)
    exact ⟨free, by simp, still, by simp, twice.inside⟩
  refine .first (.block_append (.first (.block_append (.second pushes rfl
    (.first (.instr fun s h => ⟨.gs, by simp, ?_⟩))))))
  rw [State.sighting, h.context]

/-- All that it is seen to do happens in the context that it found, and it calls nothing. -/
theorem wakeupHandler_spec (sound : K.Sound E) (shelter : K.Shelter s) :
    Spec E K.Good (fun t => t.context = s.context) (wakeupHandler K.symbols)
      (fun t => t.context = s.context) := by
  have steady : (wakeupHandler K.symbols).all Instr.steady = true := rfl
  refine .invariant steady fun i hi => .instr fun t ht => ⟨?_, fun w hw => ?_, ?_⟩
  · have root : t.cr3 = K.kernelPagetable := (congrArg Context.cr3 ht).trans shelter.1
    cases i with
    | push src => simp only [Instr.trap, root, sound.kernelPush]
    | _ => rfl
  · rw [State.sighting, ht]
    exact ⟨shelter.1, shelter.2, fun f call => absurd call (Instr.seen_of_steady hi hw f)⟩
  · rw [Instr.effect_context hi, ht]

/-- A ping is all right exactly if it finds the table and `gs` of the kernel. -/
theorem wakeupGate_iff (sound : K.Sound E) (inside : K.In s.context s) {r : Raised}
    (vector : Idt.handler r.vector = .wakeup) :
    (∀ o ∈ (K.gate E text r s []).log, K.Good o) ↔ K.Shelter s := by
  have top := Top.raise sound inside r
  have few : (if Idt.pushesStatus r.vector then r.status.toNat :: r.frame
      else r.frame).length ≤ 6 := by
    split <;> simp [Raised.frame]
  simp only [gate, gateCode, vector, Idt.Handler.entry, Entry.code]
  refine ⟨fun good => ?_, fun shelter => ?_⟩
  · obtain ⟨o, ho, rfl⟩ := wakeupHandler_sees sound few _ [] top
    exact ⟨(good _ ho).1, (good _ ho).2.1⟩
  · exact (wakeupHandler_spec sound shelter _ [] top.inside.context (List.forall_mem_nil _)).1

/-! ### All entries -/

/-- What an entry relies on: the system call on a stack it can push to and on a clear trap flag, the
gates that print on the base registers of the kernel and, for two exceptions, on an instruction
whose address does not look like a code segment of the kernel. Nothing helps the wakeup
interrupt. -/
def Restores (K : KernelCore) (E : Env CppFunction StackTrap) (s : State) : Way → Prop
  | .systemCall singleStep _ => singleStep = false ∧ E.pushTrap s.cr3 s.pushAddress = none
  | .gate r =>
      match Idt.handler r.vector with
      | .pagefault => True
      | .breakpoint => True
      | .nopInterrupt => True
      | .wakeup => False
      | _ => s.gsBase = K.perCore ∧ s.fsBase = K.kernelTls ∧
          (r.vector ∈ [21, 29] → r.rip.toNat % 4 ≠ 0)

section Entered

variable (sound : K.Sound E) (entered : K.FromCompartment s)

include entered

theorem FromCompartment.inside : K.In s.context s := ⟨entered.task, entered.words, rfl⟩

/-- Nothing under the table of the compartment is good. -/
theorem FromCompartment.not_good {o : Sighting KernelData CppFunction}
    (root : o.context.cr3 = s.cr3) : ¬ K.Good o :=
  fun good => entered.foreign (root.symm.trans good.1)

include sound

/-- A gate that prints when it was entered from the kernel under the table of the compartment. -/
theorem printGate_wrong {r : Raised} (prints : (Idt.handler r.vector).prints = true)
    (kernel : r.segment % 4 = 0) : ¬ ∀ o ∈ (K.gate E text r s []).log, K.Good o := by
  intro good
  obtain ⟨o, ho, rfl⟩ := printGate_sees (k := s.context) sound entered.inside prints _ [] rfl
  refine entered.not_good ?_ (good _ ho)
  rw [rootFor, if_pos kernel]
  rfl

/-- A trap of the push that starts the system call. -/
theorem trap_wrong (frame : KernelFrame) {t : StackTrap}
    (trap : E.pushTrap s.cr3 s.pushAddress = some t) :
    ¬ ∀ o ∈ (K.enter E text (.systemCall false frame) s).log, K.Good o := by
  rw [enter, kernelEnter_trapped trap]
  cases t with
  | pageFault =>
      obtain ⟨o, ho, root⟩ := pagefaultGate_sees (r := frame.raised 14 s) sound entered.inside rfl
        frame.cs_raised _ [] rfl
      exact fun good => entered.not_good root (good o ho)
  | stackFault =>
      have stack : (Idt.handler 12).prints = true := by decide
      exact printGate_wrong (r := frame.raised 12 s) sound entered stack
        (frame.segment_raised (by decide))

/-- A system call is all right exactly if it finds what it relies on. -/
theorem systemCall_iff (singleStep : Bool) (frame : KernelFrame) :
    (∀ o ∈ (K.enter E text (.systemCall singleStep frame) s).log, K.Good o) ↔
      K.Restores E s (.systemCall singleStep frame) := by
  refine ⟨fun good => ?_, fun ⟨clear, free⟩ => ?_⟩
  · cases singleStep with
    | true =>
        have debug : (Idt.handler 1).prints = true := by decide
        exact absurd good (printGate_wrong (r := frame.raised 1 s) sound entered debug
          (frame.segment_raised (by decide)))
    | false =>
        refine ⟨rfl, ?_⟩
        cases trap : E.pushTrap s.cr3 s.pushAddress with
        | none => rfl
        | some t => exact absurd good (trap_wrong sound entered frame trap)
  · subst clear
    obtain ⟨seen, trapped, -⟩ := kernelEnter_spec sound (k := s.context) entered.foreign s []
      ⟨entered.inside, free⟩ (List.forall_mem_nil _)
    rw [enter, handleTrap_of_not_trapped trapped]
    exact seen

/-- The gates that print. -/
theorem printGate_iff {r : Raised} (user : r.cs.toNat % 4 = 3)
    (prints : (Idt.handler r.vector).prints = true) :
    (∀ o ∈ (K.gate E text r s []).log, K.Good o) ↔
      s.gsBase = K.perCore ∧ s.fsBase = K.kernelTls ∧
        (r.vector ∈ [21, 29] → r.rip.toNat % 4 ≠ 0) := by
  rw [← r.segment_ne_iff user]
  refine ⟨fun good => ?_, fun ⟨gs, fs, segment⟩ => ?_⟩
  · obtain ⟨o, ho, rfl⟩ := printGate_sees (k := s.context) sound entered.inside prints _ [] rfl
    obtain ⟨root, gs, fs⟩ := good _ ho
    refine ⟨gs, fs _ rfl, fun kernel => entered.foreign ?_⟩
    rwa [rootFor, if_pos kernel] at root
  · exact (printGate_spec (k := s.context) sound entered.inside prints segment gs fs _ [] rfl
      (List.forall_mem_nil _)).1

/-- A gate is all right exactly if it finds what it relies on. -/
theorem gate_iff (r : Raised) (user : r.cs.toNat % 4 = 3) :
    (∀ o ∈ (K.gate E text r s []).log, K.Good o) ↔ K.Restores E s (.gate r) := by
  have always (spec : Spec E K.Good (· = K.raise r s) (K.gateCode text r.vector) fun _ => True) :
      (∀ o ∈ (K.gate E text r s []).log, K.Good o) ↔ True :=
    iff_of_true (spec _ [] rfl (List.forall_mem_nil _)).1 trivial
  cases handled : Idt.handler r.vector <;> simp only [Restores, handled]
  case pagefault =>
    refine always ?_
    rw [gateCode, handled]
    exact pagefaultGate_spec sound entered.inside (Idt.vector_of_pagefault handled) (by omega)
  case breakpoint =>
    refine always ?_
    rw [gateCode, handled]
    exact breakpointGate_spec sound entered.inside (Idt.vector_of_breakpoint handled) (by omega)
  case nopInterrupt =>
    refine always ?_
    rw [gateCode, handled]
    exact .leave
  case wakeup =>
    rw [wakeupGate_iff sound entered.inside handled]
    exact iff_of_false (fun shelter => entered.foreign shelter.1) id
  all_goals exact printGate_iff sound entered user (by rw [handled]; rfl)

end Entered

/-- **Everything the kernel does after an entry from a compartment happens in its own context
exactly when** the entry finds what it relies on. A ping that is taken meanwhile, or at any other
time, needs the table and `gs` of the kernel. -/
theorem entry_context_iff (sound : K.Sound E) (entered : K.FromCompartment s)
    (text : Idt.Handler → BitVec 64) (w : Way) (user : w.FromUser) :
    ((∀ o ∈ (K.enter E text w s).log, K.Good o) ↔ K.Restores E s w) ∧
      ∀ t, K.In t.context t → ∀ r : Raised, r.vector = 0x80 →
        ((∀ o ∈ (K.gate E text r t []).log, K.Good o) ↔ K.Shelter t) := by
  refine ⟨?_, fun t inside r vector => wakeupGate_iff sound inside (by rw [vector]; rfl)⟩
  cases w with
  | systemCall singleStep frame => exact systemCall_iff sound entered singleStep frame
  | gate r => exact gate_iff sound entered r user

section Sample

/-- The second core of a small machine. -/
def sampleCore : KernelCore where
  symbols := ⟨0x100, 0x108, 0x110, 0x200, 0x208, 0x300, 0x400, 0x410⟩
  core := 1
  kernelPagetable := 0x5000
  perCoreData := 0x6000
  kernelTls := 0x7000
  stackBase := 0x8000
  stackTop := 0x9000
  rootBound := by decide
  tlsBound := by decide
  dataBound := by decide
  stackBound := by decide
  stackRoom := by decide

/-- A compartment can write to the interrupt stack and to its own stack behind it. -/
def sampleEnv : Env CppFunction StackTrap where
  pushTrap root a := if root = 0x5000 ∨ 0x8000 ≤ a ∧ a < 0xA000 then none else some .pageFault
  callee _ s := s

/-- A compartment has set its stack pointer and base registers and leaves for the kernel. -/
def sampleEntry (sp gs fs : Nat) : State where
  regs r := if r = rsp then sp else 0
  zero := false
  less := false
  cr2 := 0
  cr3 := 0x4000
  fsBase := fs
  gsBase := gs
  tr := 0x43
  memory a :=
    if a = 0x100 then 0x5000 else if a = 0x108 then 0x6000
    else if a = 0x6080 then 0x6080 else if a = 0x60A8 then 0x7000 else 0

theorem sampleCore_sound : sampleCore.Sound sampleEnv where
  kernelPush a := by simp [sampleEnv, sampleCore]
  stackPush root a above below := if_pos (.inr ⟨above, Nat.lt_trans below (by decide)⟩)
  compartmentPush root a foreign free := by
    have range : 0x8000 ≤ a ∧ a < 0xA000 := by
      by_contra h
      simp [sampleEnv, h] at free
      exact foreign free
    have small : ∀ w ∈ sampleCore.wordAddresses, w < 0x8000 := by decide
    exact fun mem => absurd (small a mem) (by omega)

theorem sampleEntry_fromCompartment (sp gs fs : Nat) :
    sampleCore.FromCompartment (sampleEntry sp gs fs) :=
  ⟨by simp [sampleEntry, sampleCore], rfl, ⟨rfl, rfl, rfl, rfl⟩⟩

/-- Exceptions and interrupts at an instruction of the compartment. -/
def sampleRaised (vector : Nat) : Raised := ⟨vector, 0x33, 0x1000, 0x23, 0x202, 0x9800, 0x1B⟩

def sampleEnter (w : Way) (s : State) : KernelConfig :=
  sampleCore.enter sampleEnv (fun _ => 0x420) w s

end Sample

/-- A system call from a good stack, with base registers of the compartment's choice. -/
theorem entry_context_system_call :
    sampleCore.Sound sampleEnv ∧ sampleCore.FromCompartment (sampleEntry 0x9800 0xBAD 0xBAD) ∧
      ∀ o ∈ (sampleEnter (.systemCall false ⟨0, 0, 0, 0⟩) (sampleEntry 0x9800 0xBAD 0xBAD)).log,
        sampleCore.Good o :=
  ⟨sampleCore_sound, sampleEntry_fromCompartment _ _ _, (entry_context_iff sampleCore_sound
    (sampleEntry_fromCompartment _ _ _) _ (.systemCall false ⟨0, 0, 0, 0⟩) trivial).1.mpr
    ⟨rfl, rfl⟩⟩

/-- Entries that run in the context of the compartment, or in part of it: an exception that is
printed, one whose frame is read one word too low, the wakeup interrupt, a system call whose stack
cannot be pushed to, and one with the trap flag. -/
theorem entry_context_of_compartment :
    sampleCore.Sound sampleEnv ∧
    (∀ sp gs fs, sampleCore.FromCompartment (sampleEntry sp gs fs)) ∧
    (∃ o ∈ (sampleEnter (.gate (sampleRaised 0)) (sampleEntry 0x9800 0xBAD 0xBAD)).log,
      ¬ sampleCore.Good o) ∧
    (∃ o ∈ (sampleEnter (.gate (sampleRaised 21)) (sampleEntry 0x9800 0x6080 0x7000)).log,
      ¬ sampleCore.Good o) ∧
    (∃ o ∈ (sampleEnter (.gate (sampleRaised 0x80)) (sampleEntry 0x9800 0xBAD 0xBAD)).log,
      ¬ sampleCore.Good o) ∧
    (∃ o ∈ (sampleEnter (.systemCall false ⟨0, 0, 0, 0⟩) (sampleEntry 0x100 0xBAD 0xBAD)).log,
      ¬ sampleCore.Good o) ∧
    ∃ o ∈ (sampleEnter (.systemCall true ⟨0, 0, 0, 0⟩) (sampleEntry 0x9800 0xBAD 0xBAD)).log,
      ¬ sampleCore.Good o := by
  refine ⟨sampleCore_sound, sampleEntry_fromCompartment,
    ⟨⟨.call .printException, 0x5000, 0xBAD, 0xBAD⟩, by decide +kernel,
      fun good => absurd good.2.1 (by decide)⟩,
    ⟨⟨.call .printException, 0x4000, 0x6080, 0x7000⟩, by decide +kernel,
      fun good => absurd good.1 (by decide)⟩,
    ⟨⟨.gs, 0x4000, 0xBAD, 0xBAD⟩, by decide +kernel, fun good => absurd good.1 (by decide)⟩,
    ⟨⟨.gs, 0x4000, 0x6080, 0xBAD⟩, by decide +kernel, fun good => absurd good.1 (by decide)⟩,
    ⟨⟨.call .printException, 0x4000, 0xBAD, 0xBAD⟩, by decide +kernel,
      fun good => absurd good.1 (by decide)⟩⟩

end KernelCore

end Monza
