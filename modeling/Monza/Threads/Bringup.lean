import Monza.Threads.HandoverOnce

/-!
# Starting the other cores

`initialize_threads` starts the cores one after the other with `init_cpu_generic`: it stores the
control registers and the address of the new core's `PerCoreData` in shared words, sends an
interrupt to the core and waits for `finished_with_current`. The core enters at `start`, goes to
`ap_reset_handler`, loads the words and through `gs` its stack, thread-local storage and task
segment, and sets the flag before it goes on to `ap_reset`.

The words are the same for every core, so a core must have loaded all of them before they are
stored for the next one. Each load and each store is a step here. On top of them runs the hand-over
of functions, in which starting a core is one step of the main thread: that step is taken when
the core sets the flag. The memory of a core is `PerCoreData` at the address in its `gs`, so which
core it believes to be is a result and not an assumption.
-/

namespace Monza.Bringup

open Transition

/-- Besides the hand-over: the registers of the first core, the table of interrupts, the address
of `per_core_data`, the ids that the MADT gives for the local APICs, and the stacks and thread-local
storage that `initialize_threads` allocates. -/
structure Platform (φ α : Type) extends Handover.Platform φ α where
  cr0 : Nat
  cr3 : Nat
  cr4 : Nat
  idt : Nat
  perCoreData : Nat
  apicId : Nat → Nat
  stackPtr : Nat → Nat
  tlsPtr : Nat → Nat

/-- The fields of `PerCoreData` that are used while a core starts. -/
structure PerCore where
  coreId : Nat
  stackPtr : Nat
  tlsPtr : Nat
  deriving DecidableEq, Repr

/-- `current_cr0`, `current_cr3`, `current_cr4`, `current_gs` and `finished_with_current`. -/
structure Words where
  cr0 : Nat
  cr3 : Nat
  cr4 : Nat
  gs : Nat
  finished : Nat
  deriving DecidableEq, Repr

structure Registers where
  cr0 : Nat
  cr3 : Nat
  cr4 : Nat
  gs : Nat
  fs : Nat
  rsp : Nat
  tr : Nat
  idt : Nat
  deriving DecidableEq, Repr

/-- Where the main thread is in the part of `initialize_threads` that the hand-over leaves out, and
in `init_cpu_generic` and `trigger_ipi_generic`. -/
inductive Main where
  | outside
  | storeStack (i : Nat)
  | storeTls (i : Nat)
  | storeCr0 (i : Nat)
  | storeCr3 (i : Nat)
  | storeCr4 (i : Nat)
  | storeGs (i : Nat)
  | clearFinished (i : Nat)
  | selectTarget (i : Nat)
  | sendIpi (i : Nat)
  | waitSent (i : Nat)
  | waitFinished (i : Nat)
  deriving DecidableEq, Repr

/-- Where a core is on its way to `ap_reset`. A core whose id is zero takes the way of the first
core instead. -/
inductive Boot where
  | waiting
  | entered
  | loadCr0
  | loadCr4
  | loadGs
  | loadTls
  | loadStack
  | installGdt
  | installIdt
  | loadCr3
  | setFinished
  | acknowledge
  | enableInterrupts
  | ready
  | restarted
  deriving DecidableEq, Repr

namespace Boot

/-- The core is between the interrupt and its store to `finished_with_current`. -/
def loading : Boot → Bool
  | entered => true
  | loadCr0 => true
  | loadCr4 => true
  | loadGs => true
  | loadTls => true
  | loadStack => true
  | installGdt => true
  | installIdt => true
  | loadCr3 => true
  | setFinished => true
  | _ => false

/-- The core has set the flag and is not yet in `ap_reset`. -/
def leaving : Boot → Bool
  | acknowledge => true
  | enableInterrupts => true
  | _ => false

def finished (b : Boot) : Bool := b.leaving || b matches .ready

end Boot

structure State (φ α : Type) where
  handover : Handover.State φ α
  record : Nat → PerCore
  words : Words
  icrHigh : Nat
  pending : Nat → Bool
  main : Main
  boot : Nat → Boot
  regs : Nat → Registers

/-- `finish` is the store of a core to `finished_with_current`. -/
inductive Event (φ α : Type) where
  | handover (e : Handover.Event φ α)
  | main
  | deliver (c : Nat)
  | boot (c : Nat)
  | finish (c : Nat)

/-- `TSS_SEG`. -/
def tssSeg (core : Nat) : Nat := 6 * 8 + 16 * core + 3

namespace Platform

variable {φ α : Type} (P : Platform φ α)

/-- `PerCoreData::get(core)`. -/
def address (core : Nat) : Nat := P.perCoreData + 128 * core

/-- What a core is to be started with. -/
def own (core : Nat) : Registers where
  cr0 := P.cr0
  cr3 := P.cr3
  cr4 := P.cr4
  gs := P.address core
  fs := P.tlsPtr core
  rsp := P.stackPtr core
  tr := tssSeg core
  idt := P.idt

/-- The local APICs have different ids, and only the first core has the id zero. -/
structure Distinct : Prop where
  inj : ∀ c d, c < P.cores → d < P.cores → P.apicId c = P.apicId d → c = d
  pos : ∀ c, 0 < c → c < P.cores → P.apicId c ≠ 0

theorem address_inj {c d : Nat} (same : P.address c = P.address d) : c = d := by
  unfold address at same
  omega

end Platform

namespace State

variable {φ α : Type} (P : Platform φ α)

/-- The other cores wait for an interrupt with any content of their registers. -/
def initial (regs : Nat → Registers) : State φ α where
  handover := .initial P.toPlatform
  record := fun a => ⟨(a - P.perCoreData) / 128, 0, 0⟩
  words := ⟨0, 0, 0, 0, 0⟩
  icrHigh := 0
  pending := fun _ => false
  main := .outside
  boot := fun _ => .waiting
  regs := regs

variable (s : State φ α)

@[simps] def setRecord (a : Nat) (r : PerCore) : State φ α :=
  { s with record := Function.update s.record a r }

@[simps] def setBoot (c : Nat) (b : Boot) : State φ α :=
  { s with boot := Function.update s.boot c b }

@[simps] def setRegs (c : Nat) (r : Registers) : State φ α :=
  { s with regs := Function.update s.regs c r }

@[simps] def setMain (m : Main) : State φ α := { s with main := m }

/-- What the main thread does next at its place in the hand-over. -/
def phase : Handover.Thread φ α → Main
  | .initArg i => .storeStack i
  | .initReset i => .storeCr0 i
  | _ => .outside

/-- A step of the hand-over; the main thread takes none while it is elsewhere. -/
def stepHandover : Handover.Event φ α → Option (State φ α)
  | .thread 0 =>
      match s.main with
      | .outside =>
          (s.handover.step P.toPlatform (.thread 0)).map fun h =>
            { s with handover := h, main := phase (h.thread 0) }
      | _ => none
  | e => (s.handover.step P.toPlatform e).map fun h => { s with handover := h }

/-- The next step of the main thread outside of the hand-over. -/
def stepMain : Option (State φ α) :=
  match s.main with
  | .outside => none
  | .storeStack i =>
      some ((s.setRecord (P.address i)
        { s.record (P.address i) with stackPtr := P.stackPtr i }).setMain (.storeTls i))
  | .storeTls i =>
      some ((s.setRecord (P.address i)
        { s.record (P.address i) with tlsPtr := P.tlsPtr i }).setMain .outside)
  | .storeCr0 i => some { s with words.cr0 := P.cr0, main := .storeCr3 i }
  | .storeCr3 i => some { s with words.cr3 := P.cr3, main := .storeCr4 i }
  | .storeCr4 i => some { s with words.cr4 := P.cr4, main := .storeGs i }
  | .storeGs i => some { s with words.gs := P.address i, main := .clearFinished i }
  | .clearFinished i => some { s with words.finished := 0, main := .selectTarget i }
  | .selectTarget i => some { s with icrHigh := P.apicId i * 2 ^ 24, main := .sendIpi i }
  | .sendIpi i =>
      some { s with
        pending := fun c => s.pending c || decide (c < P.cores ∧ P.apicId c = s.icrHigh / 2 ^ 24)
        main := .waitSent i }
  | .waitSent i => some (s.setMain (.waitFinished i))
  | .waitFinished i =>
      if s.words.finished = 0 then some s
      else some { s with handover := s.handover.setThread 0 (.initLoop (i + 1)), main := .outside }

/-- The interrupt reaches a core that waits in the boot loader. -/
def deliver (c : Nat) : Option (State φ α) :=
  if s.boot c = .waiting ∧ s.pending c = true then
    some { s.setBoot c .entered with pending := Function.update s.pending c false }
  else none

/-- The next step of a core on its way to `ap_reset`. -/
def stepBoot (c : Nat) : Option (State φ α) :=
  let r := s.regs c
  let data := s.record r.gs
  match s.boot c with
  | .waiting => none
  | .entered => some (s.setBoot c (if P.apicId c = 0 then .restarted else .loadCr0))
  | .loadCr0 => some ((s.setRegs c { r with cr0 := s.words.cr0 }).setBoot c .loadCr4)
  | .loadCr4 => some ((s.setRegs c { r with cr4 := s.words.cr4 }).setBoot c .loadGs)
  | .loadGs => some ((s.setRegs c { r with gs := s.words.gs }).setBoot c .loadTls)
  | .loadTls => some ((s.setRegs c { r with fs := data.tlsPtr }).setBoot c .loadStack)
  | .loadStack => some ((s.setRegs c { r with rsp := data.stackPtr }).setBoot c .installGdt)
  | .installGdt => some ((s.setRegs c { r with tr := tssSeg data.coreId }).setBoot c .installIdt)
  | .installIdt => some ((s.setRegs c { r with idt := P.idt }).setBoot c .loadCr3)
  | .loadCr3 => some ((s.setRegs c { r with cr3 := s.words.cr3 }).setBoot c .setFinished)
  | .setFinished => none
  | .acknowledge => some (s.setBoot c .enableInterrupts)
  | .enableInterrupts =>
      some { s.setBoot c .ready with handover := s.handover.setCore data.coreId .start }
  | .ready => none
  | .restarted => none

/-- `mov qword [finished_with_current], 1`. -/
def finish (c : Nat) : Option (State φ α) :=
  if s.boot c = .setFinished then
    some { s.setBoot c .acknowledge with words.finished := 1 }
  else none

def step (s : State φ α) : Event φ α → Option (State φ α)
  | .handover e => s.stepHandover P e
  | .main => s.stepMain P
  | .deliver c => s.deliver c
  | .boot c => s.stepBoot P c
  | .finish c => s.finish c

/-- One call of `add_thread` at a time. -/
def OneCall (s : State φ α) : Event φ α → Prop
  | .handover e => s.handover.OneCall P.toPlatform e
  | _ => True

instance (s : State φ α) (e : Event φ α) : Decidable (s.OneCall P e) :=
  match e with
  | .handover e => inferInstanceAs (Decidable (s.handover.OneCall P.toPlatform e))
  | .main => isTrue trivial
  | .deliver _ => isTrue trivial
  | .boot _ => isTrue trivial
  | .finish _ => isTrue trivial

end State

end Monza.Bringup
