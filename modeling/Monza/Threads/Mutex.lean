import Mathlib.Tactic.Simps.Basic
import Monza.Lib.Transition
import Monza.Lib.WaitQueue

/-!
# Mutexes and condition variables

`CustomMutexImpl` and `CustomConditionVariableImpl` for any number of threads, mutexes and
condition variables. Each has a spinlock and a queue of wait entries; a mutex has the flag
`taken` besides. A thread sleeps on the semaphore of its core and is woken through it, whatever
it waits for. `trylock` does without the spinlock, and a woken thread has to try again.

Every access to a shared variable is a step; the queue operations are done inside the spinlock.
Entries are numbered in the order they are made. Recorded besides: which threads are between a
successful lock and their unlock, by which operation entries were dequeued, for which the wake
has been done, and the queue that a broadcast found.
-/

namespace Monza.Threads

open Transition WaitQueue

/-- What has a spinlock and a queue. -/
inductive Object (μ ν : Type) where
  | mutex (m : μ)
  | condition (v : ν)
  deriving DecidableEq, Repr

abbrev WaitEntry (τ μ ν : Type) := WaitQueue.Entry τ (Object μ ν)

/-- The operations that dequeue. -/
inductive Operation where
  | unlock
  | signal
  | broadcast
  deriving DecidableEq, Repr

/-- Mutex operations are called by the application or within `wait`, after its entry was made. -/
inductive Caller (τ μ ν : Type) where
  | application
  | wait (v : ν) (entry : WaitEntry τ μ ν)
  deriving DecidableEq, Repr

/-- Where a thread is, by the shared access that comes next, with its local variables. -/
inductive Phase (τ μ ν : Type) where
  | idle
  | lockSpin (m : μ) (caller : Caller τ μ ν) (again : Bool)
  | lockExchange (m : μ) (caller : Caller τ μ ν) (again : Bool)
  | lockReturn (m : μ) (caller : Caller τ μ ν)
  | lockEnqueue (m : μ) (caller : Caller τ μ ν)
  | lockRelease (m : μ) (caller : Caller τ μ ν) (entry : WaitEntry τ μ ν)
  | lockSleep (m : μ) (caller : Caller τ μ ν) (entry : WaitEntry τ μ ν)
  | tryExchange (m : μ)
  | unlockSpin (m : μ) (caller : Caller τ μ ν)
  | unlockStore (m : μ) (caller : Caller τ μ ν)
  | unlockDequeue (m : μ) (caller : Caller τ μ ν)
  | unlockRelease (m : μ) (caller : Caller τ μ ν) (entry : Option (WaitEntry τ μ ν))
  | unlockWake (m : μ) (caller : Caller τ μ ν) (entry : Option (WaitEntry τ μ ν))
  | waitSpin (v : ν) (m : μ)
  | waitEnqueue (v : ν) (m : μ)
  | waitRelease (v : ν) (m : μ) (entry : WaitEntry τ μ ν)
  | waitSleep (v : ν) (m : μ) (entry : WaitEntry τ μ ν)
  | signalSpin (v : ν)
  | signalDequeue (v : ν)
  | signalRelease (v : ν) (entry : Option (WaitEntry τ μ ν))
  | signalWake (v : ν) (entry : Option (WaitEntry τ μ ν))
  | broadcastSpin (v : ν)
  | broadcastMove (v : ν) (found localQueue : List (WaitEntry τ μ ν))
  | broadcastRelease (v : ν) (found localQueue : List (WaitEntry τ μ ν))
  | broadcastWake (v : ν) (found localQueue : List (WaitEntry τ μ ν))
  deriving DecidableEq, Repr

structure State (τ μ ν : Type) where
  spin : Object μ ν → Bool
  taken : μ → Bool
  waiters : Object μ ν → List (WaitEntry τ μ ν)
  semaphore : τ → Nat
  phase : τ → Phase τ μ ν
  owners : μ → List τ
  entries : Nat
  dequeued : List (WaitEntry τ μ ν × Operation)
  woken : List (WaitEntry τ μ ν)

inductive Event (τ μ ν : Type) where
  | lock (t : τ) (m : μ)
  | trylock (t : τ) (m : μ)
  | unlock (t : τ) (m : μ)
  | wait (t : τ) (v : ν) (m : μ)
  | signal (t : τ) (v : ν)
  | broadcast (t : τ) (v : ν)
  | advance (t : τ)
  deriving DecidableEq, Repr

namespace State

variable {τ μ ν : Type} [DecidableEq τ] [DecidableEq μ] [DecidableEq ν]

def initial : State τ μ ν :=
  ⟨fun _ => false, fun _ => false, fun _ => [], fun _ => 0, fun _ => .idle, fun _ => [], 0, [], []⟩

variable (s : State τ μ ν) (t : τ)

@[simps] def moveTo (phase : Phase τ μ ν) : State τ μ ν :=
  { s with phase := Function.update s.phase t phase }

/-- One round of `Spinlock::acquire`; the exchange stores in either case. -/
def acquireSpin (o : Object μ ν) (inside : Phase τ μ ν) : State τ μ ν :=
  { s with spin := Function.update s.spin o true }.moveTo t
    (if s.spin o then s.phase t else inside)

def releaseSpin (o : Object μ ν) (next : Phase τ μ ν) : State τ μ ν :=
  { s with spin := Function.update s.spin o false }.moveTo t next

/-- `new WaitEntry(current_thread)`. -/
def newEntry (o : Object μ ν) : WaitEntry τ μ ν := ⟨t, o, s.entries⟩

/-- A new entry of the thread at the end of the queue. -/
def enqueue (o : Object μ ν) (next : WaitEntry τ μ ν → Phase τ μ ν) : State τ μ ν :=
  { s with
    waiters := Function.update s.waiters o (s.waiters o ++ [s.newEntry t o])
    entries := s.entries + 1 }.moveTo t (next (s.newEntry t o))

/-- Take the first entry, if there is one. -/
def dequeue (o : Object μ ν) (by' : Operation)
    (next : Option (WaitEntry τ μ ν) → Phase τ μ ν) : State τ μ ν :=
  match s.waiters o with
  | [] => s.moveTo t (next none)
  | e :: rest =>
      { s with
        waiters := Function.update s.waiters o rest
        dequeued := (e, by') :: s.dequeued }.moveTo t (next (some e))

/-- `wake_thread`: release the semaphore of the thread. -/
def wake (e : WaitEntry τ μ ν) (next : Phase τ μ ν) : State τ μ ν :=
  { s with
    semaphore := Function.update s.semaphore e.thread (s.semaphore e.thread + 1)
    woken := e :: s.woken }.moveTo t next

/-- `sleep_thread`: acquire the own semaphore. -/
def sleep (next : Phase τ μ ν) : Option (State τ μ ν) :=
  if 0 < s.semaphore t then
    some ({ s with semaphore := Function.update s.semaphore t (s.semaphore t - 1) }.moveTo t next)
  else none

/-- `taken.exchange(true)`. -/
def exchange (m : μ) (success failure : Phase τ μ ν) : State τ μ ν :=
  if s.taken m then s.moveTo t failure
  else
    { s with
      taken := Function.update s.taken m true
      owners := Function.update s.owners m (t :: s.owners m) }.moveTo t success

/-- The wake at the end of `unlock` and `signal`, if an entry was dequeued. -/
def wakeEntry (entry : Option (WaitEntry τ μ ν)) (next : Phase τ μ ν) : State τ μ ν :=
  match entry with
  | none => s.moveTo t next
  | some e => s.wake t e next

/-- The next step of a thread. -/
def advance : Option (State τ μ ν) :=
  match s.phase t with
  | .idle => none
  | .lockSpin m caller again => some (s.acquireSpin t (.mutex m) (.lockExchange m caller again))
  | .lockExchange m caller _ =>
      some (s.exchange t m (.lockReturn m caller) (.lockEnqueue m caller))
  | .lockReturn m _ => some (s.releaseSpin t (.mutex m) .idle)
  | .lockEnqueue m caller => some (s.enqueue t (.mutex m) (.lockRelease m caller))
  | .lockRelease m caller e => some (s.releaseSpin t (.mutex m) (.lockSleep m caller e))
  | .lockSleep m caller _ => s.sleep t (.lockSpin m caller true)
  | .tryExchange m => some (s.exchange t m .idle .idle)
  | .unlockSpin m caller => some (s.acquireSpin t (.mutex m) (.unlockStore m caller))
  | .unlockStore m caller =>
      some <| { s with
        taken := Function.update s.taken m false
        owners := Function.update s.owners m ((s.owners m).erase t) }.moveTo t
        (.unlockDequeue m caller)
  | .unlockDequeue m caller => some (s.dequeue t (.mutex m) .unlock (.unlockRelease m caller))
  | .unlockRelease m caller entry =>
      some (s.releaseSpin t (.mutex m) (.unlockWake m caller entry))
  | .unlockWake _ .application entry => some (s.wakeEntry t entry .idle)
  | .unlockWake m (.wait v e) entry => some (s.wakeEntry t entry (.waitSleep v m e))
  | .waitSpin v m => some (s.acquireSpin t (.condition v) (.waitEnqueue v m))
  | .waitEnqueue v m => some (s.enqueue t (.condition v) (.waitRelease v m))
  | .waitRelease v m e => some (s.releaseSpin t (.condition v) (.unlockSpin m (.wait v e)))
  | .waitSleep v m e => s.sleep t (.lockSpin m (.wait v e) false)
  | .signalSpin v => some (s.acquireSpin t (.condition v) (.signalDequeue v))
  | .signalDequeue v => some (s.dequeue t (.condition v) .signal (.signalRelease v))
  | .signalRelease v entry => some (s.releaseSpin t (.condition v) (.signalWake v entry))
  | .signalWake _ entry => some (s.wakeEntry t entry .idle)
  | .broadcastSpin v =>
      some (s.acquireSpin t (.condition v) (.broadcastMove v (s.waiters (.condition v)) []))
  | .broadcastMove v found localQueue =>
      some <| s.dequeue t (.condition v) .broadcast fun
        | none => .broadcastRelease v found localQueue
        | some e => .broadcastMove v found (localQueue ++ [e])
  | .broadcastRelease v found localQueue =>
      some (s.releaseSpin t (.condition v) (.broadcastWake v found localQueue))
  | .broadcastWake _ _ [] => some (s.moveTo t .idle)
  | .broadcastWake v found (e :: rest) => some (s.wake t e (.broadcastWake v found rest))

/-- A thread calls a function. -/
def call (first : Phase τ μ ν) : Option (State τ μ ν) :=
  match s.phase t with
  | .idle => some (s.moveTo t first)
  | _ => none

def step (s : State τ μ ν) : Event τ μ ν → Option (State τ μ ν)
  | .lock t m => s.call t (.lockSpin m .application false)
  | .trylock t m => s.call t (.tryExchange m)
  | .unlock t m => s.call t (.unlockSpin m .application)
  | .wait t v m => s.call t (.waitSpin v m)
  | .signal t v => s.call t (.signalSpin v)
  | .broadcast t v => s.call t (.broadcastSpin v)
  | .advance t => s.advance t

/-- A mutex is only unlocked, by `unlock` or `wait`, by a thread that holds it. -/
def HolderUnlocks (s : State τ μ ν) : Event τ μ ν → Prop
  | .unlock t m => t ∈ s.owners m
  | .wait t _ m => t ∈ s.owners m
  | _ => True

instance (s : State τ μ ν) (e : Event τ μ ν) : Decidable (s.HolderUnlocks e) :=
  match e with
  | .unlock t m => inferInstanceAs (Decidable (t ∈ s.owners m))
  | .wait t _ m => inferInstanceAs (Decidable (t ∈ s.owners m))
  | .lock _ _ => isTrue trivial
  | .trylock _ _ => isTrue trivial
  | .signal _ _ => isTrue trivial
  | .broadcast _ _ => isTrue trivial
  | .advance _ => isTrue trivial

end State

/-! ## The account of the entries -/

namespace Phase

variable {τ μ ν : Type}

/-- The spinlock that the thread is in. -/
def inside : Phase τ μ ν → Option (Object μ ν)
  | lockExchange m _ _ => some (.mutex m)
  | lockReturn m _ => some (.mutex m)
  | lockEnqueue m _ => some (.mutex m)
  | lockRelease m _ _ => some (.mutex m)
  | unlockStore m _ => some (.mutex m)
  | unlockDequeue m _ => some (.mutex m)
  | unlockRelease m _ _ => some (.mutex m)
  | waitEnqueue v _ => some (.condition v)
  | waitRelease v _ _ => some (.condition v)
  | signalDequeue v => some (.condition v)
  | signalRelease v _ => some (.condition v)
  | broadcastMove v _ _ => some (.condition v)
  | broadcastRelease v _ _ => some (.condition v)
  | _ => none

/-- The entry that a caller will sleep on. -/
def callerEntry : Caller τ μ ν → Option (WaitEntry τ μ ν)
  | .application => none
  | .wait _ e => some e

/-- The entry that the thread has made and will sleep on. -/
def pending : Phase τ μ ν → Option (WaitEntry τ μ ν)
  | lockRelease _ _ e => some e
  | lockSleep _ _ e => some e
  | unlockSpin _ caller => callerEntry caller
  | unlockStore _ caller => callerEntry caller
  | unlockDequeue _ caller => callerEntry caller
  | unlockRelease _ caller _ => callerEntry caller
  | unlockWake _ caller _ => callerEntry caller
  | waitRelease _ _ e => some e
  | waitSleep _ _ e => some e
  | _ => none

/-- The entries that the thread has dequeued and will wake. -/
def held : Phase τ μ ν → List (WaitEntry τ μ ν)
  | unlockRelease _ _ entry => entry.toList
  | unlockWake _ _ entry => entry.toList
  | signalRelease _ entry => entry.toList
  | signalWake _ entry => entry.toList
  | broadcastMove _ _ localQueue => localQueue
  | broadcastRelease _ _ localQueue => localQueue
  | broadcastWake _ _ localQueue => localQueue
  | _ => []

def agent (p : Phase τ μ ν) : WaitQueue.Agent τ (Object μ ν) := ⟨p.inside, p.pending, p.held⟩

end Phase

namespace State

variable {τ μ ν : Type}

/-- Queues, semaphores and entries. -/
def waits (s : State τ μ ν) : WaitQueue.State τ (Object μ ν) where
  locked := s.spin
  queue := s.waiters
  tokens := s.semaphore
  next := s.entries
  dequeued := s.dequeued.map Prod.fst
  woken := s.woken
  agent := fun t => (s.phase t).agent

theorem inv_initial : WaitQueue.Inv (initial : State τ μ ν).waits := by
  constructor <;> simp [initial, waits, Phase.agent, Phase.inside, Phase.pending, Phase.held]

variable [DecidableEq τ] {s s' : State τ μ ν} {t : τ} {p : Phase τ μ ν} {o : Object μ ν}
variable {entry : Option (WaitEntry τ μ ν)} {e : WaitEntry τ μ ν} {rest : List (WaitEntry τ μ ν)}

/-- A step of a thread is one step of the account or not visible there. -/
def Accounted (s s' : State τ μ ν) [DecidableEq (Object μ ν)] : Prop :=
  s'.waits = s.waits ∨ WaitQueue.Step s.waits s'.waits

theorem agent_moveTo (s : State τ μ ν) (t : τ) (p : Phase τ μ ν) :
    (fun u => (Function.update s.phase t p u).agent) =
      Function.update (fun u => (s.phase u).agent) t p.agent := by
  funext u
  exact Function.apply_update (fun _ => Phase.agent) s.phase t p u

theorem waits_moveTo (same : p.agent = (s.phase t).agent) : (s.moveTo t p).waits = s.waits := by
  simp only [waits, moveTo, agent_moveTo, same, Function.update_eq_self]

variable [DecidableEq μ] [DecidableEq ν]

theorem acquireSpin_accounted (p : Phase τ μ ν)
    (enter : p.agent = { (s.phase t).agent with inside := some o }) :
    s.Accounted (s.acquireSpin t o p) := by
  cases spin : s.spin o with
  | true =>
      refine .inl ?_
      have same : Function.update s.spin o true = s.spin := by
        rw [← spin, Function.update_eq_self]
      simp only [acquireSpin, spin, if_true, same]
      exact waits_moveTo rfl
  | false =>
      refine .inr ?_
      have step : WaitQueue.Step s.waits (s.waits.acquire t o) := .acquire spin
      simpa only [acquireSpin, spin, waits, moveTo, agent_moveTo, enter, WaitQueue.State.acquire,
        Bool.false_eq_true, if_false] using step

theorem releaseSpin_accounted (inside : (s.phase t).inside = some o)
    (leave : p.agent = { (s.phase t).agent with inside := none }) :
    s.Accounted (s.releaseSpin t o p) := by
  refine .inr ?_
  have step : WaitQueue.Step s.waits (s.waits.release t o) := .release inside
  simpa only [releaseSpin, waits, moveTo, agent_moveTo, leave, WaitQueue.State.release] using step

theorem enqueue_accounted {next : WaitEntry τ μ ν → Phase τ μ ν}
    (none : (s.phase t).pending = none)
    (made : ∀ e, (next e).agent = { (s.phase t).agent with pending := some e }) :
    s.Accounted (s.enqueue t o next) := by
  refine .inr ?_
  have step : WaitQueue.Step s.waits (s.waits.enqueue t o) := .enqueue none
  simpa only [enqueue, newEntry, waits, moveTo, agent_moveTo, made, WaitQueue.State.enqueue,
    WaitQueue.State.entry] using step

theorem dequeue_accounted {by' : Operation} {next : Option (WaitEntry τ μ ν) → Phase τ μ ν}
    (none : (next none).agent = (s.phase t).agent)
    (taken : ∀ e, (next (some e)).agent =
      { (s.phase t).agent with held := (s.phase t).agent.held ++ [e] }) :
    s.Accounted (s.dequeue t o by' next) := by
  cases queue : s.waiters o with
  | nil =>
      refine .inl ?_
      simp only [dequeue, queue]
      exact waits_moveTo none
  | cons e rest =>
      refine .inr ?_
      have step : WaitQueue.Step s.waits (s.waits.dequeue t o e rest) := .dequeue queue
      simpa only [dequeue, queue, waits, moveTo, agent_moveTo, taken, WaitQueue.State.dequeue,
        List.map_cons] using step

theorem wake_accounted (first : (s.phase t).held = e :: rest)
    (paid : p.agent = { (s.phase t).agent with held := rest }) : s.Accounted (s.wake t e p) := by
  refine .inr ?_
  have step : WaitQueue.Step s.waits (s.waits.wake t e rest) := .wake first
  simpa only [wake, waits, moveTo, agent_moveTo, paid, WaitQueue.State.wake] using step

theorem wakeEntry_accounted (held : (s.phase t).held = entry.toList)
    (paid : p.agent = { (s.phase t).agent with held := [] }) :
    s.Accounted (s.wakeEntry t entry p) := by
  cases entry with
  | none =>
      refine .inl (waits_moveTo ?_)
      have none : (s.phase t).agent.held = [] := held
      rw [paid, ← none]
  | some e => exact wake_accounted held paid

theorem sleep_accounted (waiting : (s.phase t).pending = some e)
    (slept : p.agent = { (s.phase t).agent with pending := none })
    (run : s.sleep t p = some s') : s.Accounted s' := by
  obtain ⟨token, ⟨⟩⟩ := Option.ite_none_right_eq_some.mp run
  refine .inr ?_
  have step : WaitQueue.Step s.waits (s.waits.sleep t) := .sleep waiting token
  simpa only [waits, moveTo, agent_moveTo, slept, WaitQueue.State.sleep] using step

/-- A step that changes neither queues nor semaphores. -/
theorem exchange_accounted {m : μ} {q : Phase τ μ ν} (success : p.agent = (s.phase t).agent)
    (failure : q.agent = (s.phase t).agent) : s.Accounted (s.exchange t m p q) := by
  refine .inl ?_
  rw [exchange]
  split
  · exact waits_moveTo failure
  · exact waits_moveTo success

theorem advance_accounted (run : s.advance t = some s') : s.Accounted s' := by
  simp only [advance] at run
  cases here : s.phase t <;> rw [here] at run
  case idle => cases run
  case lockSpin | unlockSpin | waitSpin | signalSpin | broadcastSpin =>
    cases run
    exact acquireSpin_accounted _ (by rw [here]; rfl)
  case lockReturn | lockRelease | unlockRelease | waitRelease | signalRelease | broadcastRelease =>
    cases run
    exact releaseSpin_accounted (by rw [here]; rfl) (by rw [here]; rfl)
  case lockExchange | tryExchange =>
    cases run
    exact exchange_accounted (by rw [here]; rfl) (by rw [here]; rfl)
  case lockEnqueue | waitEnqueue =>
    cases run
    exact enqueue_accounted (by rw [here]; rfl) (fun _ => by rw [here]; rfl)
  case unlockDequeue | signalDequeue | broadcastMove =>
    cases run
    exact dequeue_accounted (by rw [here]; rfl) (fun _ => by rw [here]; rfl)
  case lockSleep | waitSleep =>
    exact sleep_accounted (by rw [here]; rfl) (by rw [here]; rfl) run
  case unlockStore =>
    cases run
    exact .inl (waits_moveTo (by rw [here]; rfl))
  case unlockWake m caller entry =>
    cases caller <;> cases run <;> exact wakeEntry_accounted (by rw [here]; rfl) (by rw [here]; rfl)
  case signalWake =>
    cases run
    exact wakeEntry_accounted (by rw [here]; rfl) (by rw [here]; rfl)
  case broadcastWake v found localQueue =>
    cases localQueue with
    | nil =>
        cases run
        exact .inl (waits_moveTo (by rw [here]; rfl))
    | cons e rest =>
        cases run
        exact wake_accounted (by rw [here]; rfl) (by rw [here]; rfl)

theorem call_accounted (run : s.call t p = some s')
    (none : p.agent = (.idle : Phase τ μ ν).agent) : s.Accounted s' := by
  simp only [call] at run
  cases here : s.phase t <;> rw [here] at run
  case idle =>
    cases run
    exact .inl (waits_moveTo (by rw [here, none]))
  all_goals cases run

/-- The system refines the account. -/
theorem step_accounted {e : Event τ μ ν} (run : s.step e = some s') : s.Accounted s' := by
  cases e with
  | advance t => exact advance_accounted run
  | _ => exact call_accounted run rfl

/-- Step lemma for the account. -/
theorem inv_step {ok : State τ μ ν → Event τ μ ν → Prop} {e : Event τ μ ν}
    (h : WaitQueue.Inv s.waits) (next : Within ok step s e s') : WaitQueue.Inv s'.waits := by
  obtain same | step := step_accounted next.2
  · rw [same]
    exact h
  · exact h.step step

/-- Run lemma. -/
theorem inv_run {ok : State τ μ ν → Event τ μ ν → Prop} {events : List (Event τ μ ν)}
    (run : Run (Within ok step) initial events s) : WaitQueue.Inv s.waits :=
  run.invariant (fun s => WaitQueue.Inv s.waits) (fun _ _ _ h next => inv_step h next) inv_initial

end State

end Monza.Threads
