import Mathlib.Data.Fintype.Basic
import Mathlib.Tactic.Simps.Basic
import Monza.Lib.Exclusion
import Monza.Lib.Transition
import Monza.Machine

/-!
# The single-waiter semaphore

`SingleWaiterSemaphore` on cores that are interrupted. The waiting core runs
`acquire_semaphore`: it checks the value and halts, in separate instructions. A core that
releases adds to the value and, if the value was zero, pings the waiter until the waiter's
notification handler has run. The handler `wakeup_handler` looks at the instruction pointer
it interrupts: between the check and the halt it sends the core back to the check.

Every load, store and instruction of `acquire_semaphore` is a step, and a pending
notification is taken between any two. A thread is identified with its core, and the
thread identifier zero with `none`. Notifications for other purposes come at any time.
-/

namespace Monza.Semaphore

open Transition

/-- The instructions of `acquire_semaphore`. -/
inductive Pc where
  | loopSuspend
  | test
  | jnz
  | hlt
  | loopHlt
  | endSuspend
  | dec
  | cmpxchg
  | retry
  | ret
  deriving DecidableEq, Repr

/-- Their order in memory. -/
def Pc.position : Pc → Nat
  | loopSuspend => 0
  | test => 1
  | jnz => 2
  | hlt => 3
  | loopHlt => 4
  | endSuspend => 5
  | dec => 6
  | cmpxchg => 7
  | retry => 8
  | ret => 9

/-- The registers within `acquire_semaphore`. A core that has executed `hlt` is at the next
instruction and stays there until an interrupt. -/
structure Frame where
  pc : Pc
  rcx : Nat
  rax : Nat
  zf : Bool
  halted : Bool
  deriving DecidableEq, Repr

namespace Frame

def entry : Frame := ⟨.loopSuspend, 0, 0, false, false⟩

/-- `reset_suspend_check` on the interrupted instruction pointer. -/
def resetSuspendCheck (f : Frame) : Frame :=
  if f.pc.position < Pc.loopSuspend.position then f
  else if f.pc.position ≥ Pc.loopHlt.position then f
  else { f with pc := .loopSuspend }

end Frame

/-- The notification handler, by the instruction that comes next. -/
inductive Handler where
  | notify
  | resetCheck
  | acknowledge
  | iret
  deriving DecidableEq, Repr

/-- Where the thread of a core is in `acquire` or `release`, with its local variables. -/
inductive Phase (κ : Type) where
  | idle
  | announce
  | suspend (frame : Frame)
  | withdraw
  | fetchAdd
  | loadWaiter (lastValue : Nat)
  | compare (lastValue : Nat) (currentWaiter : Option κ)
  | loadGeneration (core : κ)
  | triggerIpi (core : κ) (generation : Nat)
  | checkGeneration (core : κ) (generation : Nat)
  | aborted
  deriving DecidableEq, Repr

namespace Phase

variable {κ : Type}

/-- An interrupt changes the interrupted context within `acquire_semaphore`. -/
def mapFrame (g : Frame → Frame) : Phase κ → Phase κ
  | suspend f => suspend (g f)
  | p => p

/-- Between the call of `acquire` and its return. -/
def isAcquiring : Phase κ → Bool
  | announce => true
  | suspend _ => true
  | withdraw => true
  | _ => false

/-- Between the two stores of `acquire` to `waiter`. -/
def isAnnounced : Phase κ → Bool
  | suspend _ => true
  | withdraw => true
  | _ => false

/-- Between its `fetch_add` and the end of `release`. -/
def isReleasing : Phase κ → Bool
  | loadWaiter _ => true
  | compare _ _ => true
  | loadGeneration _ => true
  | triggerIpi _ _ => true
  | checkGeneration _ _ => true
  | _ => false

end Phase

/-- The semaphore, the cores with their notification state, and how often the value was added to
and acquired. -/
structure State (κ : Type) where
  value : Nat
  waiter : Option κ
  phase : κ → Phase κ
  handler : κ → Option Handler
  pending : κ → Bool
  generation : κ → Nat
  adds : Nat
  acquires : Nat

inductive Event (κ : Type) where
  | acquire (c : κ)
  | release (c : κ)
  | advance (c : κ)
  | notification (c : κ)
  | interrupt (c : κ)
  | handle (c : κ)

namespace State

variable {κ : Type} [DecidableEq κ]

def initial : State κ :=
  ⟨0, none, fun _ => .idle, fun _ => none, fun _ => false, fun _ => 0, 0, 0⟩

@[simps] def moveTo (s : State κ) (c : κ) (phase : Phase κ) : State κ :=
  { s with phase := Function.update s.phase c phase }

@[simps] def notify (s : State κ) (c : κ) : State κ :=
  { s with pending := Function.update s.pending c true }

@[simps] def enter (s : State κ) (c : κ) (handler : Option Handler) : State κ :=
  { s with handler := Function.update s.handler c handler }

/-- `lock cmpxchg [rdi], rcx` with the value read before in `rax`. -/
def cmpxchg (s : State κ) (c : κ) (f : Frame) : State κ :=
  if s.value = f.rax then
    { s with value := f.rcx, acquires := s.acquires + 1 }.moveTo c
      (.suspend { f with zf := true, pc := .retry })
  else s.moveTo c (.suspend { f with rax := s.value, zf := false, pc := .retry })

/-- One instruction of `acquire_semaphore`. -/
def execute (s : State κ) (c : κ) (f : Frame) : Option (State κ) :=
  match f.pc with
  | .loopSuspend => some (s.moveTo c (.suspend { f with rcx := s.value, pc := .test }))
  | .test => some (s.moveTo c (.suspend { f with zf := f.rcx = 0, pc := .jnz }))
  | .jnz => some (s.moveTo c (.suspend { f with pc := if f.zf then .hlt else .endSuspend }))
  | .hlt => some (s.moveTo c (.suspend { f with pc := .loopHlt, halted := true }))
  | .loopHlt =>
      if f.halted then none else some (s.moveTo c (.suspend { f with pc := .loopSuspend }))
  | .endSuspend => some (s.moveTo c (.suspend { f with rax := f.rcx, pc := .dec }))
  | .dec => some (s.moveTo c (.suspend { f with rcx := sub64 f.rcx 1, pc := .cmpxchg }))
  | .cmpxchg => some (s.cmpxchg c f)
  | .retry => some (s.moveTo c (.suspend { f with pc := if f.zf then .ret else .loopSuspend }))
  | .ret => some (s.moveTo c .withdraw)

/-- The next step of the thread of a core. Builds without `NDEBUG` check for a second waiter. -/
def advance (debug : Bool) (s : State κ) (c : κ) : Option (State κ) :=
  match s.phase c with
  | .idle => none
  | .announce =>
      some <| { s with waiter := some c }.moveTo c <|
        if debug ∧ s.waiter ≠ none then .aborted else .suspend .entry
  | .suspend f => s.execute c f
  | .withdraw => some ({ s with waiter := none }.moveTo c .idle)
  | .fetchAdd =>
      some <| { s with value := u64 (s.value + 1), adds := s.adds + 1 }.moveTo c
        (.loadWaiter s.value)
  | .loadWaiter last => some (s.moveTo c (.compare last s.waiter))
  | .compare last current =>
      some <| s.moveTo c <|
        match current with
        | none => .idle
        | some t => if last = 0 ∧ t ≠ c then .loadGeneration t else .idle
  | .loadGeneration t => some (s.moveTo c (.triggerIpi t (s.generation t)))
  | .triggerIpi t g => some ((s.notify t).moveTo c (.checkGeneration t g))
  | .checkGeneration t g =>
      some (s.moveTo c (if g = s.generation t then .triggerIpi t g else .idle))
  | .aborted => none

/-- A core takes a pending notification, also when it is halted. -/
def interrupt (s : State κ) (c : κ) : State κ :=
  ({ s with pending := Function.update s.pending c false }.enter c (some .notify)).moveTo c
    ((s.phase c).mapFrame fun f => { f with halted := false })

/-- The next step of `wakeup_handler`. -/
def handle (s : State κ) (c : κ) : Handler → State κ
  | .notify =>
      { s with generation := Function.update s.generation c (u64 (s.generation c + 1)) }.enter c
        (some .resetCheck)
  | .resetCheck =>
      (s.enter c (some .acknowledge)).moveTo c ((s.phase c).mapFrame Frame.resetSuspendCheck)
  | .acknowledge => s.enter c (some .iret)
  | .iret => s.enter c none

def step (debug : Bool) (s : State κ) : Event κ → Option (State κ)
  | .acquire c =>
      if s.handler c = none ∧ s.phase c = .idle then some (s.moveTo c .announce) else none
  | .release c =>
      if s.handler c = none ∧ s.phase c = .idle then some (s.moveTo c .fetchAdd) else none
  | .advance c => if s.handler c = none then s.advance debug c else none
  | .notification c => some (s.notify c)
  | .interrupt c => if s.handler c = none ∧ s.pending c then some (s.interrupt c) else none
  | .handle c => (s.handler c).map (s.handle c)

/-- One waiter at a time: `acquire` is called only when no other call of it is going on. -/
def SingleWaiter (s : State κ) : Event κ → Prop
  | .acquire _ => ∀ d, (s.phase d).isAcquiring = false
  | _ => True

instance [Fintype κ] (s : State κ) (e : Event κ) : Decidable (s.SingleWaiter e) :=
  match e with
  | .acquire _ => inferInstanceAs (Decidable (∀ d, (s.phase d).isAcquiring = false))
  | .release _ => isTrue trivial
  | .advance _ => isTrue trivial
  | .notification _ => isTrue trivial
  | .interrupt _ => isTrue trivial
  | .handle _ => isTrue trivial

end State

end Monza.Semaphore
