import Monza.Entry.Context
import Monza.Lib.Transition
import Monza.Lib.X86Stack

/-!
# Nested entries of compartments

`compartment_enter` pushes the callee-saved registers, the flags, the last stored stack pointer and
the compartment object, and stores where that ended as the new last stack pointer. The system call
comes back to this frame: it returns from `compartment_enter` to its caller, gives up the
compartment, or forwards a request, in whose handler the kernel may enter compartments again.
`abort_kernel_callback` leaves the handler and gives up the compartment that made the request.

The routines are followed with the flags and the words on the stack. Which calls of
`compartment_enter` have not returned is recorded besides, with the core as it was at the call, and
so is what their callers got back and which compartment object each handler was given.
-/

namespace Monza.Nesting

open X86 Transition

/-- What the transitions switch: the core as a call sees it, `last_stack_ptr` of the thread
execution context, the page table and the thread-local storage. -/
structure Kernel where
  call : CallState
  lastSp : Nat
  cr3 : Nat
  fsBase : Nat

section Macros

def regsEnd : Nat := 0x30

/-- The callee-saved registers at the stack pointer. -/
def storeRegisters (c : CallState) : CallState :=
  let c := c.put c.rsp c.saved.rbx
  let c := c.put (c.rsp + 0x8) c.saved.rbp
  let c := c.put (c.rsp + 0x10) c.saved.r12
  let c := c.put (c.rsp + 0x18) c.saved.r13
  let c := c.put (c.rsp + 0x20) c.saved.r14
  c.put (c.rsp + 0x28) c.saved.r15

def saveRegisters (c : CallState) : CallState := storeRegisters (c.subRsp regsEnd)

/-- The callee-saved registers from the stack pointer. -/
def loadRegisters (c : CallState) : CallState :=
  { c with saved :=
    { rbx := c.memory c.rsp
      rbp := c.memory (c.rsp + 0x8)
      r12 := c.memory (c.rsp + 0x10)
      r13 := c.memory (c.rsp + 0x18)
      r14 := c.memory (c.rsp + 0x20)
      r15 := c.memory (c.rsp + 0x28) } }

def restoreRegisters (c : CallState) : CallState := (loadRegisters c).addRsp regsEnd

def saveKernelState (lastSp self : Nat) (c : CallState) : CallState :=
  ((saveRegisters c).pushf.push lastSp).push self

/-- The last stack pointer and the compartment object that are popped, and the core after it. -/
def restoreKernelState (c : CallState) : Nat × Nat × CallState :=
  let (self, c) := c.pop
  let (lastSp, c) := c.pop
  (lastSp, self, restoreRegisters c.popf)

variable (K : KernelCore)

/-- The entry is found by an addition. -/
def getThreadExecutionContextEntry (c : CallState) : CallState := c.adds K.perCore pcdTecOffset

end Macros

section Routines

variable (K : KernelCore)

/-- Up to `sysret`. -/
def compartmentEnter (self : Nat) (k : Kernel) : Kernel :=
  let c := getThreadExecutionContextEntry K k.call
  let c := saveKernelState k.lastSp self c
  let c := getThreadExecutionContextEntry K c
  { call := c, lastSp := c.rsp, fsBase := c.memory (self + 0x8), cr3 := c.memory self }

/-- Up to the switch of the stack pointer behind `sysret`. -/
def compartmentResume (sp self : Nat) (k : Kernel) : Kernel :=
  { k with
    fsBase := k.call.memory (self + 0x8)
    cr3 := k.call.memory self
    call := { k.call with rsp := sp } }

def syscallCompartmentReturn : Nat := 1
def syscallCompartmentCallback : Nat := 5

/-- The requests that are forwarded. -/
def forwarded : Nat → Option CppFunction
  | 2 => some .forwardAllocChunk
  | 3 => some .forwardAllocMetaData
  | 4 => some .forwardDeallocChunk
  | 5 => some .forwardCallback
  | _ => none

theorem forwarded_ne_forwardExit {reason : Nat} {f : CppFunction} (h : forwarded reason = some f) :
    f ≠ .forwardExit := by
  rintro rfl
  unfold forwarded at h
  split at h
  all_goals cases h

/-- The default of the system call. -/
def exits (reason : Nat) : Bool :=
  decide (reason ≠ syscallCompartmentReturn) && (forwarded reason).isNone

/-- `kernel_enter` up to the switch for the reason, with the stack pointer of the compartment. The
flags of the compartment are pushed onto its own stack. -/
def kernelEnterContext (k : Kernel) : Nat × Kernel :=
  let c := k.call.pushf
  let sp := c.rsp
  let c := getThreadExecutionContextEntry K c
  (sp, { k with
    call := { c with rsp := k.lastSp }
    cr3 := K.kernelPagetable
    fsBase := K.kernelTls })

/-- What `compartment_forward_exit` leaves: the memory, and the status flags. -/
structure Callee where
  memory : Nat → Nat
  status : Nat

def callForwardExit (callee : Callee) (c : CallState) : CallState :=
  { c with memory := callee.memory, rflags := withStatus c.rflags callee.status }

end Routines

/-- A handler at its call, with the reason it was called for. -/
structure Handler where
  reason : Nat
  rsp : Nat
  saved : CalleeSaved

/-- A call of `compartment_enter` that has not returned, with the core as it was at the call, and
the handler its compartment waits for. -/
structure Activation where
  self : Nat
  ret : Nat
  caller : Kernel
  handler : Option Handler

/-- Where the frame of the call begins. -/
def Activation.frame (a : Activation) : Nat := a.caller.call.rsp - 0x50

/-- What the caller of `compartment_enter` gets back, and the reason for which its compartment last
entered the kernel. -/
structure Return where
  caller : Kernel
  ret : Nat
  after : Kernel
  rip : Nat
  result : Nat
  reason : Nat

/-- A call of kernel code with a compartment object. -/
structure Received where
  function : CppFunction
  self : Nat
  innermost : Nat
  deriving DecidableEq, Repr

structure State where
  kernel : Kernel
  inKernel : Bool
  active : List Activation
  returns : List Return
  received : List Received

/-- Steps of a core: kernel code runs or calls `compartment_enter`; the compartment runs, makes a
system call with registers of its choice or has a page fault; a handler returns, or calls
`abort_kernel_callback`. -/
inductive Event where
  | compute (call : CallState)
  | enter (self ret : Nat)
  | execute (memory : Nat → Nat)
  | syscall (rsp rflags : Nat) (saved : CalleeSaved) (reason : Nat) (callee : Callee)
  | pageFault
  | resume
  | abort (callee : Callee)

namespace State

def initial (kernel : Kernel) : State := ⟨kernel, true, [], [], []⟩

variable (K : KernelCore) (s : State)

def enter (self ret : Nat) : State :=
  { s with
    kernel := compartmentEnter K self { s.kernel with call := s.kernel.call.push ret }
    inKernel := false
    active := ⟨self, ret, s.kernel, none⟩ :: s.active }

/-- `ret` to the caller of `compartment_enter`. -/
def leave (a : Activation) (rest : List Activation) (k : Kernel) (result reason : Nat) : State :=
  let (rip, c) := k.call.pop
  let after := { k with call := c }
  { s with
    kernel := after
    inKernel := true
    active := rest
    returns := ⟨a.caller, a.ret, after, rip, result, reason⟩ :: s.returns }

/-- A system call with `SYSCALL_COMPARTMENT_RETURN`. -/
def compartmentReturn (a : Activation) (rest : List Activation) (k : Kernel) (reason : Nat) :
    State :=
  let (lastSp, _, c) := restoreKernelState k.call
  s.leave a rest { k with call := c, lastSp } 0x1 reason

/-- The end of `abort_kernel_callback`, and the default of the system call. -/
def compartmentExit (a : Activation) (rest : List Activation) (k : Kernel) (reason : Nat)
    (callee : Callee) : State :=
  let (lastSp, self, c) := restoreKernelState k.call
  let received := ⟨.forwardExit, self, a.self⟩ :: s.received
  { s with received }.leave a rest { k with call := callForwardExit callee c, lastSp } 0x0 reason

/-- A request that is forwarded to a handler. -/
def forward (f : CppFunction) (a : Activation) (rest : List Activation) (k : Kernel)
    (reason sp : Nat) : State :=
  let self := k.call.memory k.call.rsp
  let c := k.call.push sp
  { s with
    kernel := { k with call := c }
    inKernel := true
    active := { a with handler := some ⟨reason, c.rsp, c.saved⟩ } :: rest
    received := ⟨f, self, a.self⟩ :: s.received }

/-- The switch for the reason to enter the kernel. -/
def kernelEnter (a : Activation) (rest : List Activation) (k : Kernel) (reason sp : Nat)
    (callee : Callee) : State :=
  if reason = syscallCompartmentReturn then
    s.compartmentReturn a rest { k with call := k.call.compares reason reason } reason
  else
    match forwarded reason with
    | some f => s.forward f a rest { k with call := k.call.compares reason reason } reason sp
    | none =>
        s.compartmentExit a rest
          { k with call := k.call.compares reason syscallCompartmentCallback } reason callee

/-- A handler returns to `kernel_enter`, with the stack pointer and the callee-saved registers it
was called with. -/
def resume (a : Activation) (rest : List Activation) (h : Handler) : State :=
  let c := { s.kernel.call with rsp := h.rsp, saved := h.saved }
  let (sp, c) := c.pop
  { s with
    kernel := compartmentResume sp (c.memory c.rsp) { s.kernel with call := c }
    inKernel := false
    active := { a with handler := none } :: rest }

def abortKernelCallback (a : Activation) (rest : List Activation) (callee : Callee) (h : Handler) :
    State :=
  let c := getThreadExecutionContextEntry K s.kernel.call
  s.compartmentExit a rest { s.kernel with call := { c with rsp := s.kernel.lastSp } } h.reason
    callee

def step : Event → Option State
  | .compute call => if s.inKernel then some { s with kernel := { s.kernel with call } } else none
  | .enter self ret => if s.inKernel then some (s.enter K self ret) else none
  | .execute memory =>
      if s.inKernel then none
      else some { s with kernel := { s.kernel with call := { s.kernel.call with memory } } }
  | .syscall rsp rflags saved reason callee =>
      if s.inKernel then none
      else
        match s.active with
        | [] => none
        | a :: rest =>
            let user := { s.kernel.call with rsp, rflags, saved }
            let (sp, k) := kernelEnterContext K { s.kernel with call := user }
            some (s.kernelEnter a rest k reason sp callee)
  | .pageFault =>
      if s.inKernel then none
      else
        match s.active with
        | [] => none
        | a :: _ =>
            let self := s.kernel.call.memory s.kernel.lastSp
            some { s with received := ⟨.pageFaultHandler, self, a.self⟩ :: s.received }
  | .resume =>
      if s.inKernel then
        match s.active with
        | [] => none
        | a :: rest => a.handler.map (s.resume a rest)
      else none
  | .abort callee =>
      if s.inKernel then
        match s.active with
        | [] => none
        | a :: rest => a.handler.map (s.abortKernelCallback K a rest callee)
      else none

/-- The frames of some calls are as they were. -/
def Keeps (calls : List Activation) (memory : Nat → Nat) : Prop :=
  ∀ a ∈ calls, ∀ i < 10, memory (a.frame + 8 * i) = s.kernel.call.memory (a.frame + 8 * i)

/-- `compartment_forward_exit` keeps the frames further out and the address it is to return to. -/
def KeepsOuter (callee : Callee) : Prop :=
  s.Keeps s.active.tail callee.memory ∧ ∀ a ∈ s.active.head?,
    callee.memory (a.frame + 0x48) = s.kernel.call.memory (a.frame + 0x48)

/-- Kernel code uses the stack as the calling convention wants it: it leaves the frames alone and
calls from below the innermost one, with room on the stack for the frame and what the system call
pushes. No compartment can write to the frames. -/
def Follows : Event → Prop
  | .compute call => s.Keeps s.active call.memory
  | .enter _ _ => 0x58 ≤ s.kernel.call.rsp ∧ s.kernel.call.rsp < 2 ^ 64 ∧
      ∀ a ∈ s.active.head?, s.kernel.call.rsp ≤ a.frame
  | .execute memory => s.Keeps s.active memory
  | .syscall rsp _ _ reason callee => (exits reason = true → s.KeepsOuter callee) ∧
      ∀ a ∈ s.active, wordSub rsp 8 + 8 ≤ a.frame ∨ a.frame + 0x50 ≤ wordSub rsp 8
  | .abort callee => s.KeepsOuter callee
  | .pageFault | .resume => True

instance (calls : List Activation) (memory : Nat → Nat) : Decidable (s.Keeps calls memory) :=
  inferInstanceAs (Decidable (∀ a ∈ calls, ∀ i < 10, _))

instance (callee : Callee) : Decidable (s.KeepsOuter callee) :=
  inferInstanceAs (Decidable (_ ∧ _))

instance (e : Event) : Decidable (s.Follows e) :=
  match e with
  | .compute _ => inferInstanceAs (Decidable (s.Keeps _ _))
  | .enter _ _ => inferInstanceAs (Decidable (_ ∧ _ ∧ _))
  | .execute _ => inferInstanceAs (Decidable (s.Keeps _ _))
  | .syscall _ _ _ _ _ => inferInstanceAs (Decidable (_ ∧ _))
  | .abort _ => inferInstanceAs (Decidable (s.KeepsOuter _))
  | .pageFault => inferInstanceAs (Decidable True)
  | .resume => inferInstanceAs (Decidable True)

section Effects

variable {K : KernelCore} {s t : State} {callee : Callee}

/-- A call that has not returned is left, with the result it returns. -/
def Leaves (s t : State) (a : Activation) (rest : List Activation) (result : Nat) : Prop :=
  s.active = a :: rest ∧ t.active = rest ∧ t.inKernel = true ∧
    ∃ r, t.returns = r :: s.returns ∧ r.result = result

/-- The compartment of the innermost call is given up. -/
def Exits (s t : State) (a : Activation) (rest : List Activation) : Prop :=
  Leaves s t a rest 0 ∧ ∃ self, t.received = ⟨.forwardExit, self, a.self⟩ :: s.received

theorem exits_compartmentExit {a : Activation} {rest : List Activation} {k : Kernel} {reason : Nat}
    (active : s.active = a :: rest) :
    Exits s (s.compartmentExit a rest k reason callee) a rest :=
  ⟨⟨active, rfl, rfl, _, rfl, rfl⟩, _, rfl⟩

/-- What a system call does to the calls that have not returned. -/
theorem step_syscall {rsp rflags reason : Nat} {saved : CalleeSaved}
    (run : s.step K (.syscall rsp rflags saved reason callee) = some t) : ∃ a rest,
      (reason = syscallCompartmentReturn ∧ Leaves s t a rest 1 ∧ t.received = s.received) ∨
      (exits reason = true ∧ Exits s t a rest) ∨
      ∃ f handler self, s.active = a :: rest ∧ forwarded reason = some f ∧ t.inKernel = true ∧
        t.active = { a with handler := some handler } :: rest ∧ t.returns = s.returns ∧
        t.received = ⟨f, self, a.self⟩ :: s.received := by
  obtain ⟨-, run⟩ := Option.ite_none_left_eq_some.mp run
  split at run
  next => cases run
  next a rest active =>
    cases run
    refine ⟨a, rest, ?_⟩
    rw [kernelEnter]
    split
    next returns => exact .inl ⟨returns, ⟨active, rfl, rfl, _, rfl, rfl⟩, rfl⟩
    next other =>
      split
      next f found =>
        exact .inr (.inr ⟨f, _, _, active, found, rfl, rfl, rfl, rfl⟩)
      next none =>
        have default : exits reason = true := by simp [exits, other, none]
        exact .inr (.inl ⟨default, exits_compartmentExit active⟩)

theorem step_abort (run : s.step K (.abort callee) = some t) : ∃ a rest, Exits s t a rest := by
  obtain ⟨-, run⟩ := Option.ite_none_right_eq_some.mp run
  split at run
  next => cases run
  next a rest active =>
    obtain ⟨h, -, rfl⟩ := Option.map_eq_some_iff.mp run
    exact ⟨a, rest, exits_compartmentExit active⟩

end Effects

end State

section Frames

variable {c : CallState} {ws : List Nat}

theorem holds_storeRegisters : Holds (storeRegisters c).memory c.rsp c.saved.words := by
  simp [storeRegisters, CallState.put, CalleeSaved.words, Holds]

theorem storeRegisters_memory {x : Nat} (above : c.rsp + 0x30 ≤ x) :
    (storeRegisters c).memory x = c.memory x := by
  simp only [storeRegisters, CallState.put]
  iterate 6 rw [Function.update_of_ne (by omega)]

@[simp] theorem storeRegisters_rsp : (storeRegisters c).rsp = c.rsp := rfl

theorem pushed_saveRegisters (room : regsEnd ≤ c.rsp) (lt : c.rsp < 2 ^ 64) :
    Pushed c (saveRegisters c) c.saved.words := by
  have low := CallState.subRsp_rsp room lt
  have holds := holds_storeRegisters (c := c.subRsp regsEnd)
  rw [CallState.subRsp_saved] at holds
  refine ⟨?_, ?_, ?_⟩
  · rw [saveRegisters, storeRegisters_rsp, low]
    exact Nat.sub_add_cancel room
  · rw [saveRegisters, storeRegisters_rsp]
    exact holds
  · intro x le
    rw [saveRegisters, storeRegisters_memory (by rw [low]; unfold regsEnd at *; omega),
      CallState.subRsp_memory]

/-- The words of a frame above the return address. -/
theorem pushed_saveKernelState (lastSp self : Nat) (room : 0x48 ≤ c.rsp) (lt : c.rsp < 2 ^ 64) :
    Pushed c (saveKernelState lastSp self c)
      ([self, lastSp, withStatus c.rflags (subStatus c.rsp regsEnd)] ++ c.saved.words) := by
  have registers := pushed_saveRegisters (c := c) (by unfold regsEnd; omega) lt
  have low := registers.rsp
  simp only [CalleeSaved.words, List.length_cons, List.length_nil] at low
  have flags : Pushed (saveRegisters c) (saveRegisters c).pushf _ := .push (by omega) (by omega)
  have lower := flags.rsp
  simp only [List.length_cons, List.length_nil] at lower
  have link : Pushed (saveRegisters c).pushf ((saveRegisters c).pushf.push lastSp) [lastSp] :=
    .push (by omega) (by omega)
  have lowest := link.rsp
  simp only [List.length_cons, List.length_nil] at lowest
  exact registers.trans (flags.trans (link.trans (.push (by omega) (by omega))))

/-- Restoring undoes saving, except for the status flags. -/
theorem restoreKernelState_of_holds {lastSp self flags : Nat} {saved : CalleeSaved}
    (h : Holds c.memory c.rsp ([self, lastSp, flags] ++ saved.words ++ ws))
    (fits : c.rsp + 0x48 < 2 ^ 64) : ∃ c', restoreKernelState c = (lastSp, self, c') ∧
      c'.rsp = c.rsp + 0x48 ∧ c'.saved = saved ∧ c'.memory = c.memory ∧
      c'.rflags &&& controlFlags = flags &&& controlFlags := by
  obtain ⟨rfl, rfl, rfl, rbx, rbp, r12, r13, r14, r15, -⟩ := h
  have first : wordAdd c.rsp 8 = c.rsp + 8 := wordAdd_of_lt (by omega)
  have second : wordAdd (c.rsp + 8) 8 = c.rsp + 0x10 := wordAdd_of_lt (by omega)
  have third : wordAdd (c.rsp + 0x10) 8 = c.rsp + 0x18 := wordAdd_of_lt (by omega)
  have state : restoreKernelState c = (c.memory (c.rsp + 8), c.memory c.rsp,
      restoreRegisters { c with rsp := c.rsp + 0x18, rflags := c.memory (c.rsp + 0x10) }) := by
    simp only [restoreKernelState, CallState.pop, CallState.popf, first, second, third]
  refine ⟨_, state, ?_, ?_, rfl, withStatus_controlFlags _ _⟩
  · exact wordAdd_of_lt (a := c.rsp + 0x18) (n := regsEnd) (by unfold regsEnd; omega)
  cases saved
  exact CalleeSaved.mk.injEq .. ▸ ⟨rbx, rbp, r12, r13, r14, r15⟩

end Frames

section Activations

variable (K : KernelCore)

/-- The flags in the frame of a call. -/
def Activation.flags (a : Activation) : Nat :=
  withStatus (withStatus a.caller.call.rflags (addStatus K.perCore pcdTecOffset))
    (subStatus (a.caller.call.rsp - 8) regsEnd)

def Activation.block (a : Activation) : Block :=
  ⟨a.frame, [a.self, a.caller.lastSp, a.flags K] ++ a.caller.call.saved.words ++ [a.ret]⟩

/-- Each frame names the one further out. -/
def Linked : Nat → List Activation → Prop
  | _, [] => True
  | lastSp, a :: rest => lastSp = a.frame ∧ Linked a.caller.lastSp rest

/-- The frames of the calls are on the stack, and the last stack pointer is the innermost one. -/
structure Framed (memory : Nat → Nat) (lastSp : Nat) (active : List Activation) : Prop where
  stacked : Stacked memory (active.map (Activation.block K))
  linked : Linked lastSp active
  room : ∀ a ∈ active, 0x58 ≤ a.caller.call.rsp ∧ a.caller.call.rsp < 2 ^ 64

variable {K} {a : Activation} {rest : List Activation} {memory memory' : Nat → Nat} {lastSp : Nat}
  {active : List Activation} {k : Kernel}

theorem Activation.flags_controlFlags (a : Activation) :
    a.flags K &&& controlFlags = a.caller.call.rflags &&& controlFlags := by
  rw [flags, withStatus_controlFlags, withStatus_controlFlags]

theorem pushed_compartmentEnter (self ret : Nat) (room : 0x50 ≤ k.call.rsp)
    (lt : k.call.rsp < 2 ^ 64) :
    Pushed k.call (compartmentEnter K self { k with call := k.call.push ret }).call
      ((⟨self, ret, k, none⟩ : Activation).block K).words := by
  have call : Pushed k.call (k.call.push ret) [ret] := .push (by omega) lt
  have low : (k.call.push ret).rsp = k.call.rsp - 8 := CallState.push_rsp (by omega) lt
  have frame := pushed_saveKernelState (c := (k.call.push ret).adds K.perCore pcdTecOffset)
    k.lastSp self (by rw [CallState.adds_rsp]; omega)
    (by rw [CallState.adds_rsp]; omega)
  have all := call.trans ((Pushed.adds K.perCore pcdTecOffset).trans
    (frame.trans (.adds K.perCore pcdTecOffset)))
  simp only [CallState.adds_rsp, CallState.adds_rflags, CallState.adds_saved, low,
    CallState.push_rflags, CallState.push_saved, List.nil_append, List.append_nil] at all
  exact all

theorem compartmentEnter_frame (self ret : Nat) (room : 0x50 ≤ k.call.rsp)
    (lt : k.call.rsp < 2 ^ 64) :
    (compartmentEnter K self { k with call := k.call.push ret }).call.rsp =
      k.call.rsp - 0x50 := by
  have rsp := (pushed_compartmentEnter (K := K) self ret room lt).rsp
  simp only [Activation.block, CalleeSaved.words, List.length_append, List.length_cons,
    List.length_nil] at rsp
  omega

theorem Framed.congr (h : Framed K memory lastSp active)
    (same : ∀ a ∈ active, ∀ i < 10, memory' (a.frame + 8 * i) = memory (a.frame + 8 * i)) :
    Framed K memory' lastSp active := by
  refine ⟨h.stacked.congr ?_, h.linked, h.room⟩
  intro b mem
  obtain ⟨a, member, rfl⟩ := List.mem_map.mp mem
  exact same a member

theorem Framed.enter (h : Framed K k.call.memory k.lastSp active) (self ret : Nat)
    (room : 0x58 ≤ k.call.rsp) (lt : k.call.rsp < 2 ^ 64)
    (inner : ∀ a ∈ active.head?, k.call.rsp ≤ a.frame) :
    Framed K (compartmentEnter K self { k with call := k.call.push ret }).call.memory
      (compartmentEnter K self { k with call := k.call.push ret }).lastSp
      (⟨self, ret, k, none⟩ :: active) := by
  have frame := compartmentEnter_frame (K := K) self ret (Nat.le_trans (by decide) room) lt
  refine ⟨?_, ⟨frame, h.linked⟩, ?_⟩
  · have stacked := h.stacked.cons (pushed_compartmentEnter (K := K) self ret
      (Nat.le_trans (by decide) room) lt) ?_
    · rw [frame] at stacked
      exact stacked
    · intro o mem
      rw [List.head?_map] at mem
      obtain ⟨a, member, rfl⟩ := Option.map_eq_some_iff.mp mem
      exact inner a member
  · intro a mem
    rcases List.mem_cons.mp mem with rfl | mem
    · exact ⟨room, lt⟩
    · exact h.room a mem

/-- Restoring from the innermost frame gives what its call has saved. -/
theorem Framed.restore {c : CallState} (h : Framed K c.memory lastSp (a :: rest))
    (rsp : c.rsp = lastSp) : ∃ c', restoreKernelState c = (a.caller.lastSp, a.self, c') ∧
      c'.rsp = a.frame + 0x48 ∧ c'.saved = a.caller.call.saved ∧ c'.memory = c.memory ∧
      c'.rflags &&& controlFlags = a.caller.call.rflags &&& controlFlags := by
  obtain ⟨linked, -⟩ := h.linked
  obtain ⟨room, lt⟩ := h.room a List.mem_cons_self
  have holds := h.stacked.holds (a.block K) List.mem_cons_self
  have start : c.rsp = a.frame := rsp.trans linked
  have fits : c.rsp + 0x48 < 2 ^ 64 := by
    rw [start, Activation.frame]
    omega
  rw [← a.flags_controlFlags (K := K), ← start]
  refine restoreKernelState_of_holds (?_ : Holds c.memory c.rsp (a.block K).words) fits
  rw [start]
  exact holds

theorem Framed.self (h : Framed K memory lastSp (a :: rest)) : memory lastSp = a.self := by
  have holds := h.stacked.holds (a.block K) List.mem_cons_self
  rw [h.linked.1]
  exact holds.1

theorem Framed.ret (h : Framed K memory lastSp (a :: rest)) :
    memory (a.frame + 0x48) = a.ret := by
  have holds := h.stacked.holds (a.block K) List.mem_cons_self
  exact (holds_append.mp holds).2.1

theorem Framed.tail (h : Framed K memory lastSp (a :: rest)) :
    Framed K memory a.caller.lastSp rest :=
  ⟨h.stacked.tail, h.linked.2, fun a mem => h.room a (List.mem_cons_of_mem _ mem)⟩

/-- A word written outside the frames. -/
theorem Framed.write {x v : Nat} (h : Framed K memory lastSp active)
    (apart : ∀ a ∈ active, x + 8 ≤ a.frame ∨ a.frame + 0x50 ≤ x) :
    Framed K (Function.update memory x v) lastSp active := by
  apply h.congr
  intro a mem i lt
  have := apart a mem
  apply Function.update_of_ne
  omega

/-- The innermost frame is the lowest. -/
theorem Framed.frame_le (h : Framed K memory lastSp (a :: rest)) :
    ∀ b ∈ a :: rest, a.frame ≤ b.frame := by
  have ordered := h.stacked.le_base (a := a.frame) (fun b mem => by
    obtain rfl : a.block K = b := Option.some.inj mem
    exact Nat.le_refl _)
  intro b mem
  exact ordered (b.block K) (List.mem_map_of_mem mem)

/-- What the system call pushes below the innermost frame. -/
theorem Framed.push {c : CallState} {v : Nat} (h : Framed K c.memory lastSp (a :: rest))
    (rsp : c.rsp = lastSp) : Framed K (c.push v).memory lastSp (a :: rest) := by
  have frame : c.rsp = a.frame := rsp.trans h.linked.1
  have room := h.room a List.mem_cons_self
  have low : 8 ≤ a.frame ∧ a.frame < 2 ^ 64 := by
    unfold Activation.frame
    omega
  rw [CallState.push_memory (by omega) (by omega)]
  apply h.write
  intro b mem
  have := h.frame_le b mem
  omega

/-- Frames do not depend on the handlers. -/
theorem Framed.setHandler {handler : Option Handler} (h : Framed K memory lastSp (a :: rest)) :
    Framed K memory lastSp ({ a with handler } :: rest) := by
  refine ⟨h.stacked, h.linked, ?_⟩
  intro b mem
  rcases List.mem_cons.mp mem with rfl | mem
  · exact h.room a List.mem_cons_self
  · exact h.room b (List.mem_cons_of_mem _ mem)

end Activations

/-- The caller of `compartment_enter` finds what it left: the last stack pointer, its stack pointer
and registers, and the flags that additions do not set. The result says for which reason. -/
structure Return.Restored (r : Return) : Prop where
  lastSp : r.after.lastSp = r.caller.lastSp
  rsp : r.after.call.rsp = r.caller.call.rsp
  saved : r.after.call.saved = r.caller.call.saved
  rflags : r.after.call.rflags &&& controlFlags = r.caller.call.rflags &&& controlFlags
  rip : r.rip = r.ret
  result : r.result = if r.reason = syscallCompartmentReturn then 1 else 0

structure Inv (K : KernelCore) (s : State) : Prop where
  framed : Framed K s.kernel.call.memory s.kernel.lastSp s.active
  handlers : ∀ a ∈ s.active, ∀ h ∈ a.handler, h.reason ≠ syscallCompartmentReturn
  returns : ∀ r ∈ s.returns, r.Restored
  received : ∀ o ∈ s.received, o.self = o.innermost

namespace Inv

variable {K : KernelCore} {s s' : State} {a : Activation} {rest : List Activation} {k : Kernel}
  {callee : Callee} {reason result sp : Nat}

theorem initial (kernel : Kernel) : Inv K (.initial kernel) := by
  refine ⟨⟨.nil, trivial, ?_⟩, ?_, ?_, ?_⟩
  all_goals exact fun _ no => (List.not_mem_nil no).elim

/-- Memory changes outside the frames. -/
theorem keeps (h : Inv K s) {call : CallState} (same : s.Keeps s.active call.memory) :
    Inv K { s with kernel := { s.kernel with call } } :=
  ⟨h.framed.congr same, h.handlers, h.returns, h.received⟩

theorem enter (h : Inv K s) {self ret : Nat} (room : 0x58 ≤ s.kernel.call.rsp)
    (lt : s.kernel.call.rsp < 2 ^ 64) (inner : ∀ a ∈ s.active.head?, s.kernel.call.rsp ≤ a.frame) :
    Inv K (s.enter K self ret) := by
  have framed := h.framed.enter self ret room lt inner
  rw [State.enter]
  refine ⟨framed, ?_, h.returns, h.received⟩
  intro a mem
  rcases List.mem_cons.mp mem with rfl | mem
  · exact fun _ no => (Option.not_mem_none _ no).elim
  · exact h.handlers a mem

/-- The return to the caller, from a core on which the innermost frame has been restored. -/
theorem leave (h : Inv K s) (active : s.active = a :: rest)
    (outer : Framed K k.call.memory k.lastSp rest) (lastSp : k.lastSp = a.caller.lastSp)
    (rsp : k.call.rsp = a.frame + 0x48) (saved : k.call.saved = a.caller.call.saved)
    (rflags : k.call.rflags &&& controlFlags = a.caller.call.rflags &&& controlFlags)
    (ret : k.call.memory (a.frame + 0x48) = a.ret)
    (returned : result = if reason = syscallCompartmentReturn then 1 else 0) :
    Inv K (s.leave a rest k result reason) := by
  obtain ⟨room, lt⟩ := h.framed.room a (by rw [active]; exact List.mem_cons_self)
  refine ⟨outer, ?_, ?_, h.received⟩
  · intro b mem
    exact h.handlers b (by rw [active]; exact List.mem_cons_of_mem _ mem)
  · intro r mem
    rcases List.mem_cons.mp mem with rfl | mem
    · refine ⟨lastSp, ?_, saved, rflags, ?_, returned⟩
      · show wordAdd k.call.rsp 8 = a.caller.call.rsp
        rw [rsp, Activation.frame, wordAdd_of_lt (by omega)]
        omega
      · show k.call.memory k.call.rsp = a.ret
        rw [rsp, ret]
    · exact h.returns r mem

theorem compartmentReturn (h : Inv K s) (active : s.active = a :: rest)
    (framed : Framed K k.call.memory k.lastSp (a :: rest)) (rsp : k.call.rsp = k.lastSp) :
    Inv K (s.compartmentReturn a rest k syscallCompartmentReturn) := by
  obtain ⟨c, restored, sp, saved, memory, rflags⟩ := framed.restore rsp
  rw [State.compartmentReturn, restored]
  refine h.leave active ?_ rfl sp saved rflags ?_ rfl
  · show Framed K c.memory a.caller.lastSp rest
    rw [memory]
    exact framed.tail
  · show c.memory (a.frame + 0x48) = a.ret
    rw [memory]
    exact framed.ret

/-- An exit, for which the callee keeps the outer frames and the return address. -/
theorem compartmentExit (h : Inv K s) (active : s.active = a :: rest)
    (framed : Framed K k.call.memory k.lastSp (a :: rest)) (rsp : k.call.rsp = k.lastSp)
    (keeps : s.KeepsOuter callee) (other : reason ≠ syscallCompartmentReturn) :
    Inv K (s.compartmentExit a rest k reason callee) := by
  obtain ⟨c, restored, sp, saved, memory, rflags⟩ := framed.restore rsp
  have before := h.framed
  rw [active] at before
  obtain ⟨outer, ret⟩ := keeps
  rw [active] at outer ret
  rw [State.compartmentExit, restored]
  have noted : Inv K { s with received := ⟨.forwardExit, a.self, a.self⟩ :: s.received } := by
    refine ⟨h.framed, h.handlers, h.returns, ?_⟩
    exact List.forall_mem_cons.mpr ⟨rfl, h.received⟩
  refine noted.leave active ?_ rfl sp saved ?_ ?_ (if_neg other).symm
  · exact before.tail.congr outer
  · exact (withStatus_controlFlags _ _).trans rflags
  · exact (ret a rfl).trans before.ret

theorem forward (h : Inv K s) (active : s.active = a :: rest) {f : CppFunction}
    (framed : Framed K k.call.memory k.lastSp (a :: rest)) (rsp : k.call.rsp = k.lastSp)
    (other : reason ≠ syscallCompartmentReturn) :
    Inv K (s.forward f a rest k reason sp) := by
  have self : k.call.memory k.call.rsp = a.self := by
    rw [rsp]
    exact framed.self
  have pushed : Framed K (k.call.push sp).memory k.lastSp (a :: rest) := framed.push rsp
  rw [State.forward]
  refine ⟨pushed.setHandler, ?_, h.returns, ?_⟩
  · intro b mem
    rcases List.mem_cons.mp mem with rfl | mem
    · intro i here
      obtain rfl := Option.some.inj here
      exact other
    · exact h.handlers b (by rw [active]; exact List.mem_cons_of_mem _ mem)
  · exact List.forall_mem_cons.mpr ⟨self, h.received⟩

theorem kernelEnter (h : Inv K s) (active : s.active = a :: rest)
    (framed : Framed K k.call.memory k.lastSp (a :: rest)) (rsp : k.call.rsp = k.lastSp)
    (keeps : exits reason = true → s.KeepsOuter callee) :
    Inv K (s.kernelEnter a rest k reason sp callee) := by
  rw [State.kernelEnter]
  split
  next returns =>
    subst returns
    exact h.compartmentReturn active framed rsp
  next other =>
    split
    next => exact h.forward active framed rsp other
    next none =>
      have default : exits reason = true := by simp [exits, other, none]
      exact h.compartmentExit active framed rsp (keeps default) other

theorem syscall (h : Inv K s) (active : s.active = a :: rest) {user : CallState}
    (memory : user.memory = s.kernel.call.memory)
    (keeps : exits reason = true → s.KeepsOuter callee)
    (apart : ∀ a ∈ s.active,
      wordSub user.rsp 8 + 8 ≤ a.frame ∨ a.frame + 0x50 ≤ wordSub user.rsp 8) :
    Inv K (s.kernelEnter a rest (kernelEnterContext K { s.kernel with call := user }).2 reason
      (kernelEnterContext K { s.kernel with call := user }).1 callee) := by
  have before := h.framed
  rw [active] at before apart
  have framed : Framed K user.pushf.memory s.kernel.lastSp (a :: rest) := by
    rw [CallState.pushf, CallState.push, memory]
    exact before.write apart
  rw [kernelEnterContext]
  exact h.kernelEnter active framed rfl keeps

theorem abortKernelCallback (h : Inv K s) (active : s.active = a :: rest) {i : Handler}
    (here : i ∈ a.handler) (keeps : s.KeepsOuter callee) :
    Inv K (s.abortKernelCallback K a rest callee i) := by
  have before := h.framed
  rw [active] at before
  refine h.compartmentExit active before rfl keeps ?_
  exact h.handlers a (by rw [active]; exact List.mem_cons_self) i here

theorem resume (h : Inv K s) (active : s.active = a :: rest) {i : Handler} :
    Inv K (s.resume a rest i) := by
  have before := h.framed
  rw [active] at before
  refine ⟨before.setHandler, ?_, h.returns, h.received⟩
  intro b mem
  rcases List.mem_cons.mp mem with rfl | mem
  · exact fun _ no => (Option.not_mem_none _ no).elim
  · exact h.handlers b (by rw [active]; exact List.mem_cons_of_mem _ mem)

theorem pageFault (h : Inv K s) (active : s.active = a :: rest) :
    Inv K { s with received := ⟨.pageFaultHandler, s.kernel.call.memory s.kernel.lastSp, a.self⟩ ::
      s.received } := by
  have before := h.framed
  rw [active] at before
  refine ⟨h.framed, h.handlers, h.returns, ?_⟩
  exact List.forall_mem_cons.mpr ⟨before.self, h.received⟩

/-- Step lemma. -/
theorem step {e : Event} (h : Inv K s) (next : Within State.Follows (State.step K) s e s') :
    Inv K s' := by
  obtain ⟨follows, run⟩ := next
  cases e with
  | compute call =>
      obtain ⟨-, ⟨⟩⟩ := Option.ite_none_right_eq_some.mp run
      exact h.keeps follows
  | enter self ret =>
      obtain ⟨-, ⟨⟩⟩ := Option.ite_none_right_eq_some.mp run
      exact h.enter follows.1 follows.2.1 follows.2.2
  | execute memory =>
      obtain ⟨-, ⟨⟩⟩ := Option.ite_none_left_eq_some.mp run
      exact h.keeps follows
  | syscall rsp rflags saved reason callee =>
      obtain ⟨-, run⟩ := Option.ite_none_left_eq_some.mp run
      split at run
      next => cases run
      next a rest active =>
        cases run
        exact h.syscall active rfl follows.1 follows.2
  | pageFault =>
      obtain ⟨-, run⟩ := Option.ite_none_left_eq_some.mp run
      split at run
      next => cases run
      next a rest active =>
        cases run
        exact h.pageFault active
  | resume =>
      obtain ⟨-, run⟩ := Option.ite_none_right_eq_some.mp run
      split at run
      next => cases run
      next a rest active =>
        obtain ⟨i, -, rfl⟩ := Option.map_eq_some_iff.mp run
        exact h.resume active
  | abort callee =>
      obtain ⟨-, run⟩ := Option.ite_none_right_eq_some.mp run
      split at run
      next => cases run
      next a rest active =>
        obtain ⟨i, here, rfl⟩ := Option.map_eq_some_iff.mp run
        exact h.abortKernelCallback active here follows

/-- Run lemma. -/
theorem run {kernel : Kernel} {events : List Event}
    (run : Run (Within State.Follows (State.step K)) (.initial kernel) events s) : Inv K s :=
  run.invariant (Inv K) (fun _ _ _ h next => h.step next) (initial kernel)

end Inv

/-- For any nesting of entries, system calls with any reason, callbacks that enter compartments
again, and callbacks that are aborted: each caller of `compartment_enter` finds what it left, with
the result true if and only if its compartment has returned, and every handler got the compartment
object of the innermost call that had not returned. -/
theorem transitions_nested (K : KernelCore) (kernel : Kernel) (events : List Event) (s : State)
    (run : Run (Within State.Follows (State.step K)) (.initial kernel) events s) :
    (∀ r ∈ s.returns, r.Restored) ∧ ∀ o ∈ s.received, o.self = o.innermost := by
  have inv := Inv.run run
  exact ⟨inv.returns, inv.received⟩

def sampleKernel : Kernel where
  call := ⟨0x9000, 0x203, ⟨1, 2, 3, 4, 5, 6⟩, fun _ => 0⟩
  lastSp := 0
  cr3 := 0x5000
  fsBase := 0x7000

def sampleSyscall (reason : Nat) : Event :=
  .syscall 0x3000 0x246 ⟨0, 0, 0, 0, 0, 0⟩ reason ⟨fun _ => 0x41, 0⟩

/-- A callback enters a second compartment, which returns; the next callback is aborted. -/
def sampleNesting : List Event :=
  [.enter 0x100 0x41, sampleSyscall 5, .enter 0x200 0x42, sampleSyscall 1, .resume, sampleSyscall 5,
    .abort ⟨fun _ => 0x41, 0⟩]

theorem transitions_nested_sample : ∃ s,
    Run (Within State.Follows (State.step KernelCore.sampleCore)) (.initial sampleKernel)
      sampleNesting s ∧
      s.returns.map (·.result) = [0, 1] ∧ s.received.map (·.self) = [0x100, 0x100, 0x100] ∧
      (∀ r ∈ s.returns, r.Restored) ∧ ∀ o ∈ s.received, o.self = o.innermost := by
  have done : (simulate State.Follows (State.step KernelCore.sampleCore) sampleNesting
      (.initial sampleKernel)).map (fun s => (s.returns.map (·.result), s.received.map (·.self))) =
      some ([0, 1], [0x100, 0x100, 0x100]) := by decide +kernel
  obtain ⟨s, hs, seen⟩ := Option.map_eq_some_iff.mp done
  obtain ⟨results, received⟩ := Prod.mk.inj seen
  have run := simulate_run hs
  exact ⟨s, run, results, received, transitions_nested _ _ _ s run⟩

/-- The carry flag is set at the call and clear after the return. -/
theorem carry_not_restored : ∃ s,
    Run (Within State.Follows (State.step KernelCore.sampleCore)) (.initial sampleKernel)
      [.enter 0x100 0x41, sampleSyscall 1] s ∧
      ∃ r ∈ s.returns, r.caller.call.rflags = 0x203 ∧ r.after.call.rflags = 0x202 := by
  have done : (simulate State.Follows (State.step KernelCore.sampleCore)
      [.enter 0x100 0x41, sampleSyscall 1] (.initial sampleKernel)).bind
        (fun s => s.returns.head?.map fun r => (r.caller.call.rflags, r.after.call.rflags)) =
      some (0x203, 0x202) := by decide +kernel
  obtain ⟨s, hs, last⟩ := Option.bind_eq_some_iff.mp done
  obtain ⟨r, mem, seen⟩ := Option.map_eq_some_iff.mp last
  obtain ⟨before, after⟩ := Prod.mk.inj seen
  exact ⟨s, simulate_run hs, r, List.mem_of_head? mem, before, after⟩

end Monza.Nesting
