import Mathlib.Logic.Function.Basic
import Mathlib.Tactic.Simps.Basic
import Monza.Lib.Transition
import Monza.Machine
import Monza.Threads.Semaphore

/-!
# Synchronous pings

`ping_core_sync` loads the notification generation of a core and triggers interrupts until the
generation has changed. `ping_all_cores_sync`, which is `flush_process_write_buffers`, does so for
every other core. `trigger_ipi` is a platform function: the generic one sends an interrupt through
the local interrupt controller, and the handler of the target increments the generation; the one
for SEV increments it itself.

A core executes its handler with the locked increment. How often it has is recorded for each core,
and for each call what the records were when it began and when it returned.
-/

namespace Monza.Ping

open Transition
open Semaphore (Handler)

/-- The implementation of `trigger_ipi`. -/
inductive Platform where
  | generic
  | sev
  deriving DecidableEq, Repr

/-- Where the thread of a core is in a ping of `c`, with the generation it has loaded, and whether
the ping is one of `ping_all_cores_sync`. -/
inductive Phase where
  | idle
  | loop (c : Nat)
  | load (c : Nat) (all : Bool)
  | destination (c g : Nat) (all : Bool)
  | command (c g : Nat) (all : Bool)
  | poll (c g : Nat) (all : Bool)
  | fetchAdd (c g : Nat) (all : Bool)
  | check (c g : Nat) (all : Bool)
  | aborted
  deriving DecidableEq, Repr

/-- The first step of `trigger_ipi`. -/
def Platform.triggerIpi (platform : Platform) (c g : Nat) (all : Bool) : Phase :=
  match platform with
  | generic => .destination c g all
  | sev => .fetchAdd c g all

/-- A call of `ping_core_sync`, or of `ping_all_cores_sync` if there is no target, that has
returned, with how often each core had executed its handler before and after it. -/
structure Return where
  caller : Nat
  target : Option Nat
  before : Nat → Nat
  after : Nat → Nat

/-- Each core that was pinged has executed its handler since the call began. -/
def Return.Synchronous (cores : Nat) (r : Return) : Prop :=
  match r.target with
  | some c => r.before c < r.after c
  | none => ∀ c < cores, c ≠ r.caller → r.before c < r.after c

/-- The notification state of the cores and their local interrupt controllers, and the records. -/
structure State where
  generation : Nat → Nat
  phase : Nat → Phase
  handler : Nat → Option Handler
  pending : Nat → Bool
  destination : Nat → Nat
  sending : Nat → Option Nat
  executed : Nat → Nat
  pingBegan : Nat → Nat → Nat
  flushBegan : Nat → Nat → Nat
  returns : List Return

inductive Event where
  | ping (w c : Nat)
  | flush (w : Nat)
  | advance (w : Nat)
  | deliver (w : Nat)
  | interrupt (c : Nat)
  | handle (c : Nat)
  deriving DecidableEq, Repr

namespace State

def initial : State where
  generation := fun _ => 0
  phase := fun _ => .idle
  handler := fun _ => none
  pending := fun _ => false
  destination := fun _ => 0
  sending := fun _ => none
  executed := fun _ => 0
  pingBegan := fun _ _ => 0
  flushBegan := fun _ _ => 0
  returns := []

variable (s : State)

@[simps] def moveTo (w : Nat) (phase : Phase) : State :=
  { s with phase := Function.update s.phase w phase }

@[simps!] def beginPing (w c : Nat) (all : Bool) : State :=
  { s.moveTo w (.load c all) with pingBegan := Function.update s.pingBegan w s.executed }

@[simps!] def beginFlush (w : Nat) : State :=
  { s.moveTo w (.loop 0) with flushBegan := Function.update s.flushBegan w s.executed }

/-- `ping_core_sync` returns, within `ping_all_cores_sync` to its loop. -/
@[simps!] def returnPing (w c : Nat) (all : Bool) : State :=
  { s.moveTo w (if all then .loop (c + 1) else .idle) with
    returns := s.returns ++ [⟨w, some c, s.pingBegan w, s.executed⟩] }

@[simps!] def returnFlush (w : Nat) : State :=
  { s.moveTo w .idle with returns := s.returns ++ [⟨w, none, s.flushBegan w, s.executed⟩] }

/-- The next step of the thread of a core. `PerCoreData::get` aborts when there is no such core. -/
def advance (platform : Platform) (cores : Nat) (w : Nat) : Option State :=
  match s.phase w with
  | .idle => none
  | .loop c =>
      if c < cores then
        if c = w then some (s.moveTo w (.loop (c + 1))) else some (s.beginPing w c true)
      else some (s.returnFlush w)
  | .load c all =>
      some (s.moveTo w (if c < cores then platform.triggerIpi c (s.generation c) all else .aborted))
  | .destination c g all =>
      some ({ s with destination := Function.update s.destination w c }.moveTo w (.command c g all))
  | .command c g all =>
      some ({ s with sending := Function.update s.sending w (some (s.destination w)) }.moveTo w
        (.poll c g all))
  | .poll c g all =>
      some (s.moveTo w (if (s.sending w).isSome then .poll c g all else .check c g all))
  | .fetchAdd c g all =>
      some ({ s with
        generation := Function.update s.generation c (u64 (s.generation c + 1)) }.moveTo w
          (.check c g all))
  | .check c g all =>
      if g = s.generation c then some (s.moveTo w (platform.triggerIpi c g all))
      else some (s.returnPing w c all)
  | .aborted => none

/-- The next step of `wakeup_handler`. -/
def handle (c : Nat) : Handler → State
  | .notify =>
      { s with
        generation := Function.update s.generation c (u64 (s.generation c + 1))
        executed := Function.update s.executed c (s.executed c + 1)
        handler := Function.update s.handler c (some .resetCheck) }
  | .resetCheck => { s with handler := Function.update s.handler c (some .acknowledge) }
  | .acknowledge => { s with handler := Function.update s.handler c (some .iret) }
  | .iret => { s with handler := Function.update s.handler c none }

def step (platform : Platform) (cores : Nat) (s : State) : Event → Option State
  | .ping w c =>
      if w < cores ∧ s.handler w = none ∧ s.phase w = .idle then some (s.beginPing w c false)
      else none
  | .flush w =>
      if w < cores ∧ s.handler w = none ∧ s.phase w = .idle then some (s.beginFlush w) else none
  | .advance w => if s.handler w = none then s.advance platform cores w else none
  | .deliver w =>
      match s.sending w with
      | none => none
      | some c =>
          some { s with
            pending := Function.update s.pending c true
            sending := Function.update s.sending w none }
  | .interrupt c =>
      if s.handler c = none ∧ s.pending c then
        some { s with
          pending := Function.update s.pending c false
          handler := Function.update s.handler c (some .notify) }
      else none
  | .handle c => (s.handler c).map (s.handle c)

/-- The caller has come to core `c`: the cores before it have executed their handlers. -/
def Flushed (s : State) (w c : Nat) : Prop :=
  (∀ d, s.flushBegan w d ≤ s.executed d) ∧ ∀ d < c, d ≠ w → s.flushBegan w d < s.executed d

/-- A ping of `ping_all_cores_sync` has begun after those before it. -/
def Began (s : State) (w c : Nat) (all : Bool) : Prop :=
  all = true → s.Flushed w c ∧ s.flushBegan w c ≤ s.pingBegan w c

/-- The generation was loaded after the ping had begun. -/
def Loaded (s : State) (w c g : Nat) : Prop :=
  ∃ k, s.pingBegan w c ≤ k ∧ k ≤ s.executed c ∧ g = u64 k

def Fits (s : State) (w : Nat) : Phase → Prop
  | .idle => True
  | .loop c => s.Flushed w c
  | .load c all => s.Began w c all ∧ s.pingBegan w c ≤ s.executed c
  | .destination c g all => s.Began w c all ∧ s.Loaded w c g
  | .command c g all => s.Began w c all ∧ s.Loaded w c g
  | .poll c g all => s.Began w c all ∧ s.Loaded w c g
  | .fetchAdd _ _ _ => False
  | .check c g all => s.Began w c all ∧ s.Loaded w c g
  | .aborted => True

/-- On the generic platform, generations count executions of the handler. -/
structure Inv (cores : Nat) (s : State) : Prop where
  counter : ∀ c, s.generation c = u64 (s.executed c)
  fits : ∀ w, s.Fits w (s.phase w)
  returns : ∀ r ∈ s.returns, r.Synchronous cores

variable {cores : Nat} {s s' : State} {w c g : Nat} {all : Bool} {p : Phase}

/-- Executing handlers keeps what the callers know. -/
theorem Fits.mono (fits : s.Fits w p) (ping : s'.pingBegan w = s.pingBegan w)
    (flush : s'.flushBegan w = s.flushBegan w) (more : ∀ c, s.executed c ≤ s'.executed c) :
    s'.Fits w p := by
  have flushed : ∀ c, s.Flushed w c → s'.Flushed w c := by
    rintro c ⟨le, lt⟩
    rw [Flushed, flush]
    exact ⟨fun d => Nat.le_trans (le d) (more d),
      fun d hd ne => Nat.lt_of_lt_of_le (lt d hd ne) (more d)⟩
  have began : ∀ c all, s.Began w c all → s'.Began w c all := by
    intro c all began each
    rw [ping, flush]
    exact ⟨flushed c (began each).1, (began each).2⟩
  have loaded : ∀ c g, s.Loaded w c g → s'.Loaded w c g := by
    rintro c g ⟨k, low, high, eq⟩
    exact ⟨k, ping ▸ low, Nat.le_trans high (more c), eq⟩
  cases p
  case idle | aborted => trivial
  case loop c => exact flushed c fits
  case load c all =>
    refine ⟨began c all fits.1, ?_⟩
    rw [ping]
    exact Nat.le_trans fits.2 (more c)
  case fetchAdd c g all => exact fits.elim
  case destination c g all | command c g all | poll c g all | check c g all =>
    exact ⟨began c all fits.1, loaded c g fits.2⟩

/-- What is left to show for a step of a caller. -/
theorem Inv.of_caller (h : Inv cores s) (phase : s'.phase = Function.update s.phase w p)
    (generation : s'.generation = s.generation) (executed : s'.executed = s.executed)
    (ping : ∀ u, u ≠ w → s'.pingBegan u = s.pingBegan u)
    (flush : ∀ u, u ≠ w → s'.flushBegan u = s.flushBegan u)
    (fits : s'.Fits w p) (returns : ∀ r ∈ s'.returns, r ∈ s.returns ∨ r.Synchronous cores) :
    Inv cores s' := by
  refine ⟨?_, ?_, ?_⟩
  · rw [generation, executed]
    exact h.counter
  · rw [phase]
    refine (Function.forall_update_iff s.phase fun u q => s'.Fits u q).mpr ⟨fits, ?_⟩
    intro u ne
    exact (h.fits u).mono (ping u ne) (flush u ne) (fun c => by rw [executed])
  · intro r mem
    exact (returns r mem).elim (h.returns r) id

/-- A step that only moves the caller. -/
theorem Inv.move (h : Inv cores s) (phase : s'.phase = Function.update s.phase w p)
    (generation : s'.generation = s.generation) (executed : s'.executed = s.executed)
    (ping : s'.pingBegan = s.pingBegan) (flush : s'.flushBegan = s.flushBegan)
    (returns : s'.returns = s.returns) (fits : s.Fits w p) : Inv cores s' := by
  refine h.of_caller phase generation executed (fun u _ => congrFun ping u)
    (fun u _ => congrFun flush u) ?_ ?_
  · exact fits.mono (congrFun ping w) (congrFun flush w) (fun c => by rw [executed])
  · intro r mem
    exact .inl (returns ▸ mem)

theorem Inv.beginPing (h : Inv cores s) (began : all = true → s.Flushed w c) :
    Inv cores (s.beginPing w c all) := by
  refine h.of_caller rfl rfl rfl (fun u ne => Function.update_of_ne ne _ _) (fun _ _ => rfl) ?_
    (fun _ => .inl)
  refine ⟨?_, by simp⟩
  intro each
  have flushed := began each
  exact ⟨flushed, by simpa using flushed.1 c⟩

theorem Inv.beginFlush (h : Inv cores s) : Inv cores (s.beginFlush w) := by
  refine h.of_caller rfl rfl rfl (fun _ _ => rfl) (fun u ne => Function.update_of_ne ne _ _) ?_
    (fun _ => .inl)
  exact ⟨fun d => by simp, fun d lt => absurd lt (Nat.not_lt_zero d)⟩

/-- The generation has changed, so the handler has been executed. -/
theorem Inv.returnPing (h : Inv cores s) (began : s.Began w c all) (loaded : s.Loaded w c g)
    (changed : g ≠ s.generation c) : Inv cores (s.returnPing w c all) := by
  obtain ⟨k, low, high, rfl⟩ := loaded
  have executed : s.pingBegan w c < s.executed c := by
    refine Nat.lt_of_le_of_lt low (Nat.lt_of_le_of_ne high ?_)
    rintro rfl
    exact changed (h.counter c).symm
  refine h.of_caller rfl rfl rfl (fun _ _ => rfl) (fun _ _ => rfl) ?_ ?_
  · cases all with
    | false => trivial
    | true =>
        obtain ⟨flushed, since⟩ := began rfl
        refine ⟨flushed.1, ?_⟩
        intro d lt ne
        obtain before | rfl := Nat.lt_or_eq_of_le (Nat.le_of_lt_succ lt)
        · exact flushed.2 d before ne
        · exact Nat.lt_of_le_of_lt since executed
  · intro r mem
    obtain before | now := List.mem_append.mp mem
    · exact .inl before
    · rw [List.mem_singleton.mp now]
      exact .inr executed

theorem Inv.returnFlush (h : Inv cores s) (flushed : s.Flushed w c) (all : cores ≤ c) :
    Inv cores (s.returnFlush w) := by
  refine h.of_caller (p := .idle) rfl rfl rfl (fun _ _ => rfl) (fun _ _ => rfl) trivial ?_
  intro r mem
  obtain before | now := List.mem_append.mp mem
  · exact .inl before
  · rw [List.mem_singleton.mp now]
    exact .inr fun d lt ne => flushed.2 d (Nat.lt_of_lt_of_le lt all) ne

/-- Step lemma for the callers on the generic platform. -/
theorem Inv.advance (h : Inv cores s) (run : s.advance .generic cores w = some s') :
    Inv cores s' := by
  have fits := h.fits w
  simp only [State.advance] at run
  cases here : s.phase w <;> simp only [here, Fits] at run fits
  case idle | aborted => cases run
  case loop c =>
    split at run
    next lt =>
      split at run
      next self =>
        cases run
        refine h.move rfl rfl rfl rfl rfl rfl ⟨fits.1, ?_⟩
        intro d before ne
        refine fits.2 d (Nat.lt_of_le_of_ne (Nat.le_of_lt_succ before) ?_) ne
        exact fun last => ne (last.trans self)
      next =>
        cases run
        exact h.beginPing fun _ => fits
    next all =>
      cases run
      exact h.returnFlush fits (Nat.le_of_not_lt all)
  case load c all =>
    cases run
    split
    · exact h.move rfl rfl rfl rfl rfl rfl
        ⟨fits.1, s.executed c, fits.2, Nat.le_refl _, h.counter c⟩
    · exact h.move rfl rfl rfl rfl rfl rfl trivial
  case destination c g all | command c g all =>
    cases run
    exact h.move rfl rfl rfl rfl rfl rfl fits
  case poll c g all =>
    cases run
    split <;> exact h.move rfl rfl rfl rfl rfl rfl fits
  case check c g all =>
    split at run
    next =>
      cases run
      exact h.move rfl rfl rfl rfl rfl rfl fits
    next changed =>
      cases run
      exact h.returnPing fits.1 fits.2 changed

/-- Step lemma for the handlers. -/
theorem Inv.handle (h : Inv cores s) (c : Nat) (handler : Handler) :
    Inv cores (s.handle c handler) := by
  cases handler
  case notify =>
    have more : ∀ d, s.executed d ≤ (s.handle c .notify).executed d := by
      intro d
      by_cases same : d = c
      · subst same
        simp [State.handle]
      · simp [State.handle, same]
    refine ⟨?_, fun w => (h.fits w).mono rfl rfl more, h.returns⟩
    intro d
    by_cases same : d = c
    · subst same
      simp only [State.handle, Function.update_self, h.counter d]
      exact Nat.mod_add_mod _ _ _
    · simpa [State.handle, same] using h.counter d
  all_goals exact ⟨h.counter, h.fits, h.returns⟩

/-- Step lemma. -/
theorem Inv.step {e : Event} (h : Inv cores s) (run : s.step .generic cores e = some s') :
    Inv cores s' := by
  cases e with
  | ping w c =>
      obtain ⟨-, ⟨⟩⟩ := Option.ite_none_right_eq_some.mp run
      exact h.beginPing (by simp)
  | flush w =>
      obtain ⟨-, ⟨⟩⟩ := Option.ite_none_right_eq_some.mp run
      exact h.beginFlush
  | advance w => exact h.advance (Option.ite_none_right_eq_some.mp run).2
  | deliver w =>
      simp only [State.step] at run
      split at run
      · cases run
      · cases run
        exact ⟨h.counter, h.fits, h.returns⟩
  | interrupt c =>
      obtain ⟨-, ⟨⟩⟩ := Option.ite_none_right_eq_some.mp run
      exact ⟨h.counter, h.fits, h.returns⟩
  | handle c =>
      obtain ⟨handler, -, rfl⟩ := Option.map_eq_some_iff.mp run
      exact h.handle c handler

theorem inv_initial : Inv cores initial where
  counter _ := rfl
  fits _ := trivial
  returns _ mem := by cases mem

/-- Run lemma. -/
theorem inv_run {events : List Event}
    (run : Run (Within (fun _ _ => True) (step .generic cores)) initial events s) : Inv cores s :=
  run.invariant (Inv cores) (fun _ _ _ h next => h.step next.2) inv_initial

end State

/-- The first core pings itself: the call on SEV increments the generation and returns. -/
def selfPing : List Event := [.ping 0 0, .advance 0, .advance 0, .advance 0]

theorem selfPing_returns (cores : Nat) (pos : 0 < cores) : ∃ s,
    Run (Within (fun _ _ => True) (State.step .sev cores)) State.initial selfPing s ∧
      ∃ r ∈ s.returns, ¬ r.Synchronous cores := by
  obtain ⟨n, rfl⟩ := Nat.exists_eq_succ_of_ne_zero (Nat.ne_of_gt pos)
  have done : (simulate (fun _ _ => True) (State.step .sev (n + 1)) selfPing State.initial).bind
      (fun s => s.returns.head?.map fun r => (r.target, r.before 0, r.after 0)) =
      some (some 0, 0, 0) := rfl
  obtain ⟨s, hs, first⟩ := Option.bind_eq_some_iff.mp done
  obtain ⟨r, mem, seen⟩ := Option.map_eq_some_iff.mp first
  simp only [Prod.mk.injEq] at seen
  obtain ⟨target, before, after⟩ := seen
  refine ⟨s, simulate_run hs, r, List.mem_of_head? mem, ?_⟩
  simp only [Return.Synchronous, target, before, after]
  exact Nat.lt_irrefl 0

/-- Pings are synchronous on the generic platform and on no other: for any number of cores, in
every run, each `ping_core_sync` and each `flush_process_write_buffers` that has returned did so
after the cores it pinged had executed their handlers. -/
theorem pings_synchronous_iff (platform : Platform) (cores : Nat) (pos : 0 < cores) :
    (∀ events s, Run (Within (fun _ _ => True) (State.step platform cores)) State.initial events s →
      ∀ r ∈ s.returns, r.Synchronous cores) ↔ platform = .generic := by
  constructor
  · intro synchronous
    cases platform with
    | generic => rfl
    | sev =>
        obtain ⟨s, run, r, mem, early⟩ := selfPing_returns cores pos
        exact absurd (synchronous _ s run r mem) early
  · rintro rfl events s run
    exact (State.inv_run run).returns

/-- On two cores, the first flushes the write buffers of the second. -/
def sampleFlush : List Event :=
  [[.flush 0], List.replicate 4 (.advance 0), [.advance 0, .deliver 0, .interrupt 1, .handle 1],
    List.replicate 3 (.advance 0)].flatten

theorem pings_synchronous_iff_sample : ∃ s,
    Run (Within (fun _ _ => True) (State.step .generic 2)) State.initial sampleFlush s ∧
      s.returns.length = 2 ∧ ∀ r ∈ s.returns, r.Synchronous 2 := by
  have done : (simulate (fun _ _ => True) (State.step .generic 2) sampleFlush State.initial).map
      (fun s => s.returns.length) = some 2 := by decide +kernel
  obtain ⟨s, hs, returns⟩ := Option.map_eq_some_iff.mp done
  have run := simulate_run hs
  exact ⟨s, run, returns, (pings_synchronous_iff .generic 2 (by decide)).mpr rfl _ s run⟩

/-- On SEV, the first of two cores flushes the write buffers of the second, which does nothing. -/
theorem flush_sev_returns_early : ∃ s,
    Run (Within (fun _ _ => True) (State.step .sev 2)) State.initial
      (.flush 0 :: List.replicate 6 (.advance 0)) s ∧
      ∃ r ∈ s.returns, r.target = none ∧ r.before 1 = 0 ∧ r.after 1 = 0 ∧ ¬ r.Synchronous 2 := by
  have done : (simulate (fun _ _ => True) (State.step .sev 2)
      (.flush 0 :: List.replicate 6 (.advance 0)) State.initial).bind
        (fun s => s.returns.getLast?.map fun r => (r.caller, r.target, r.before 1, r.after 1)) =
      some (0, none, 0, 0) := by decide +kernel
  obtain ⟨s, hs, last⟩ := Option.bind_eq_some_iff.mp done
  obtain ⟨r, mem, seen⟩ := Option.map_eq_some_iff.mp last
  simp only [Prod.mk.injEq] at seen
  obtain ⟨caller, target, before, after⟩ := seen
  refine ⟨s, simulate_run hs, r, List.mem_of_getLast? mem, target, before, after, ?_⟩
  rw [Return.Synchronous, target]
  intro synchronous
  have late := synchronous 1 (by decide) (by rw [caller]; decide)
  rw [before, after] at late
  exact Nat.lt_irrefl 0 late

end Monza.Ping
