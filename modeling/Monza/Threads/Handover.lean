import Mathlib.Logic.Function.Basic
import Mathlib.Tactic.Simps.Basic
import Monza.Lib.Transition
import Monza.Lib.Worker
import Monza.Machine

/-!
# Handing functions over to the other cores

`initialize_threads` and `add_thread` on one side, the loop of `ap_reset` on the other. They
share the thread execution context of the core, in which `code_ptr` and `arg` say what to run
and `done` whether it has been run, and the number of executing cores. Each access to a shared
word is a step. Pinging a core changes none of these words; stacks and thread-local storage are
not part of the context here.

A thread is named by the core it runs on: the main thread, which initializes the others, and on
the other cores the function that has been handed over. Recorded besides: for each core the
functions stored in its context, started and finished on it, and the calls of `add_thread` that
have returned.
-/

namespace Monza.Handover

open Transition

/-- The number of usable cores, the function that every core is given first, and the conversion of
integers to pointers. -/
structure Platform (φ α : Type) where
  cores : Nat
  coreInitializer : φ
  pointer : Nat → α
  cores_pos : 0 < cores

/-- `ThreadExecutionContext`. -/
structure Context (φ α : Type) where
  codePtr : Option φ
  arg : α
  done : Nat

/-- Where a core is in `ap_reset`, with its registers. -/
inductive Core (φ α : Type) where
  | off
  | start
  | loop
  | loadArg (f : φ)
  | increment (f : φ) (a : α)
  | clearDone (f : φ) (a : α)
  | clearCode (f : φ) (a : α)
  | call (f : φ) (a : α)
  | running (f : φ) (a : α)
  | setDone
  | decrement
  deriving DecidableEq, Repr

/-- Where a thread is in `initialize_threads`, in `add_thread`, or at the end of `monza_main`. -/
inductive Thread (φ α : Type) where
  | idle
  | initLoop (i : Nat)
  | initArg (i : Nat)
  | initCode (i : Nat)
  | initReset (i : Nat)
  | waitLoop (i : Nat)
  | waitDone (i : Nat)
  | addLoop (i : Nat) (f : φ) (a : α)
  | addLoad (i : Nat) (f : φ) (a : α)
  | addArg (i : Nat) (f : φ) (a : α)
  | addCode (i : Nat) (f : φ) (a : α)
  | addWait (i : Nat) (f : φ) (a : α)
  | addPing (i : Nat) (f : φ) (a : α)
  | exitDecrement
  | exitWait
  | exited
  deriving DecidableEq, Repr

/-- A call of `add_thread` that has returned. -/
structure Call (φ α : Type) where
  function : φ
  arg : α
  id : Nat
  deriving DecidableEq, Repr

structure State (φ α : Type) where
  context : Nat → Context φ α
  executing : Nat
  core : Nat → Core φ α
  thread : Nat → Thread φ α
  posted : Nat → List (φ × α)
  started : Nat → List (φ × α)
  finished : Nat → List (φ × α)
  calls : List (Call φ α)

inductive Event (φ α : Type) where
  | add (w : Nat) (f : φ) (a : α)
  | exit
  | thread (w : Nat)
  | core (c : Nat)
  deriving DecidableEq, Repr

def coreToThread (core : Nat) : Nat := core + 1

def threadToCore (thread : Nat) : Nat := thread - 1

namespace Thread

variable {φ α : Type}

/-- The thread is in `initialize_threads` or `add_thread`. -/
def active : Thread φ α → Bool
  | idle => false
  | exitDecrement => false
  | exitWait => false
  | exited => false
  | _ => true

end Thread

namespace State

variable {φ α : Type} (P : Platform φ α)

/-- The main thread enters `initialize_threads`; the other cores are off. -/
def initial : State φ α where
  context := fun _ => ⟨none, P.pointer 0, 0⟩
  executing := 1
  core := fun _ => .off
  thread := fun w => if w = 0 then .initLoop 1 else .idle
  posted := fun _ => []
  started := fun _ => []
  finished := fun _ => []
  calls := []

variable (s : State φ α)

@[simps] def setContext (c : Nat) (x : Context φ α) : State φ α :=
  { s with context := Function.update s.context c x }

@[simps] def setCore (c : Nat) (p : Core φ α) : State φ α :=
  { s with core := Function.update s.core c p }

@[simps] def setThread (w : Nat) (p : Thread φ α) : State φ α :=
  { s with thread := Function.update s.thread w p }

/-- `code_ptr.store(f)`. -/
@[simps!] def storeCode (c : Nat) (f : φ) : State φ α :=
  { s.setContext c { s.context c with codePtr := some f } with
    posted := Function.update s.posted c (s.posted c ++ [(f, (s.context c).arg)]) }

/-- `return id`. -/
@[simps!] def returnId (w : Nat) (f : φ) (a : α) (id : Nat) : State φ α :=
  { s.setThread w .idle with calls := s.calls ++ [⟨f, a, id⟩] }

/-- The next step of a thread within the library. -/
def stepThread (w : Nat) : Option (State φ α) :=
  match s.thread w with
  | .idle => none
  | .initLoop i =>
      some (s.setThread w (if i < P.cores then .initArg i else .waitLoop 1))
  | .initArg i =>
      some ((s.setContext i { s.context i with arg := P.pointer i }).setThread w (.initCode i))
  | .initCode i => some ((s.storeCode i P.coreInitializer).setThread w (.initReset i))
  | .initReset i => some ((s.setCore i .start).setThread w (.initLoop (i + 1)))
  | .waitLoop i => some (s.setThread w (if i < P.cores then .waitDone i else .idle))
  | .waitDone i =>
      some (s.setThread w (if (s.context i).done = 0 then .waitDone i else .waitLoop (i + 1)))
  | .addLoop i f a =>
      if i < P.cores then some (s.setThread w (.addLoad i f a)) else some (s.returnId w f a 0)
  | .addLoad i f a =>
      some (s.setThread w
        (if (s.context i).done = 1 then .addArg i f a else .addLoop (i + 1) f a))
  | .addArg i f a =>
      some ((s.setContext i { s.context i with arg := a }).setThread w (.addCode i f a))
  | .addCode i f a => some ((s.storeCode i f).setThread w (.addWait i f a))
  | .addWait i f a =>
      match (s.context i).codePtr with
      | some _ => some (s.setThread w (.addPing i f a))
      | none => some (s.returnId w f a (coreToThread i))
  | .addPing i f a => some (s.setThread w (.addWait i f a))
  | .exitDecrement =>
      some ({ s with executing := sub64 s.executing 1 }.setThread w .exitWait)
  | .exitWait => some (s.setThread w (if 0 < s.executing then .exitWait else .exited))
  | .exited => none

/-- The next step of a core in `ap_reset`; a function that is not in a library call may return. -/
def stepCore (c : Nat) : Option (State φ α) :=
  match s.core c with
  | .off => none
  | .start => some (s.setCore c .loop)
  | .loop =>
      match (s.context c).codePtr with
      | none => some (s.setCore c .loop)
      | some f => some (s.setCore c (.loadArg f))
  | .loadArg f => some (s.setCore c (.increment f (s.context c).arg))
  | .increment f a =>
      some ({ s with executing := u64 (s.executing + 1) }.setCore c (.clearDone f a))
  | .clearDone f a =>
      some ((s.setContext c { s.context c with done := 0 }).setCore c (.clearCode f a))
  | .clearCode f a =>
      some ((s.setContext c { s.context c with codePtr := none }).setCore c (.call f a))
  | .call f a =>
      some ({ s with
        started := Function.update s.started c (s.started c ++ [(f, a)]) }.setCore c
          (.running f a))
  | .running f a =>
      if (s.thread c).active then none
      else
        some ({ s with
          finished := Function.update s.finished c (s.finished c ++ [(f, a)]) }.setCore c .setDone)
  | .setDone =>
      some ((s.setContext c { s.context c with done := 1 }).setCore c .decrement)
  | .decrement =>
      some ({ s with executing := sub64 s.executing 1 }.setCore c .loop)

/-- The main thread runs on the first core, functions on the others. -/
def runs (w : Nat) : Bool :=
  match w, s.core w with
  | 0, _ => true
  | _ + 1, .running _ _ => true
  | _ + 1, _ => false

/-- A thread calls `add_thread`, the main thread returns from `main`, or a thread or a core
takes its next step. -/
def step (s : State φ α) : Event φ α → Option (State φ α)
  | .add w f a =>
      match s.thread w with
      | .idle => if w < P.cores ∧ s.runs w then some (s.setThread w (.addLoop 1 f a)) else none
      | _ => none
  | .exit =>
      match s.thread 0 with
      | .idle => some (s.setThread 0 .exitDecrement)
      | _ => none
  | .thread w => s.stepThread P w
  | .core c => s.stepCore c

/-- No thread calls `add_thread` while one is in `initialize_threads` or `add_thread`. -/
def OneCall (s : State φ α) : Event φ α → Prop
  | .add _ _ _ => ∀ w < P.cores, (s.thread w).active = false
  | _ => True

instance (s : State φ α) (e : Event φ α) : Decidable (s.OneCall P e) :=
  match e with
  | .add _ _ _ => inferInstanceAs (Decidable (∀ w < P.cores, (s.thread w).active = false))
  | .exit => isTrue trivial
  | .thread _ => isTrue trivial
  | .core _ => isTrue trivial

/-- `is_thread_done`. -/
def isThreadDone (id : Nat) : Bool := (s.context (threadToCore id)).done = 1

/-- What the calls that have returned the id of a core asked for, oldest first. -/
def results (c : Nat) : List (φ × α) :=
  (s.calls.filter (fun call => call.id = coreToThread c)).map fun call => (call.function, call.arg)

end State

end Monza.Handover
