import Mathlib.Logic.Basic

/-!
# The pipe listener of an HCS enclave

An enclave on Hyper-V has a thread that prints what the guest writes to a pipe. The thread object
is joined in three places: `HCSEnclave::join`, which the platform calls from its own `join` and from
its destructor, and the deleter of the handle that owns the thread object. The platform remembers
that it has joined; the deleter does not ask.

What Windows does during a call is an argument: an operation may fail, and a wait may never end.
`std::thread::join` throws when the thread is not joinable. An exception that leaves a call is
caught by the caller; one that leaves a destructor terminates the program.
-/

namespace Monza.HcsListener

/-- How a call ends, if it does. -/
inductive Ending where
  | returned
  | thrown
  | blocked
  deriving DecidableEq, Repr

/-- What happens to the thread object. -/
inductive ThreadEvent where
  | join (joinable : Bool)
  | deleted
  deriving DecidableEq, Repr

/-- What the system does during a call: how starting the compute system ends, whether the event is
created, whether one of the stopping conditions fires, and whether the listener ends. -/
structure Environment where
  start : Ending
  eventCreated : Bool
  stops : Bool
  listenerEnds : Bool
  deriving DecidableEq, Repr

/-- The members of the platform and of its enclave that matter for the thread, whether the thread
is joinable, and what has happened to it. -/
structure Platform where
  joined : Bool
  started : Bool
  finished : Bool
  joinable : Bool
  log : List ThreadEvent
  deriving DecidableEq, Repr

/-- The constructor of the enclave has created the thread. -/
def Platform.initial : Platform := ⟨false, false, false, true, []⟩

/-! ### The enclave -/

namespace Enclave

variable (env : Environment) (p : Platform)

/-- `std::thread::join`. -/
def joinThread : Ending × Platform :=
  let q := { p with log := p.log ++ [.join p.joinable] }
  if !p.joinable then (.thrown, q)
  else if env.listenerEnds then (.returned, { q with joinable := false })
  else (.blocked, q)

def asyncRun : Ending × Platform :=
  match env.start with
  | .returned => (.returned, { p with started := true })
  | .thrown => (.thrown, p)
  | .blocked => (.blocked, p)

def join : Ending × Platform :=
  if p.started && !env.eventCreated then (.thrown, p)
  else if p.started && !env.stops then (.blocked, p)
  else joinThread env { p with started := false }

/-- The deleter of `pipe_listener`, which the destructor of the enclave runs. -/
def deletePipeListener : Ending × Platform :=
  match joinThread env { p with finished := true } with
  | (.returned, q) => (.returned, { q with log := q.log ++ [.deleted] })
  | (.thrown, q) => (.thrown, q)
  | (.blocked, q) => (.blocked, q)

end Enclave

/-! ### The platform -/

inductive Call where
  | asyncRun
  | join
  deriving DecidableEq, Repr

namespace Platform

variable (env : Environment) (p : Platform)

def join : Ending × Platform :=
  if !p.joined then
    match Enclave.join env p with
    | (.returned, q) => (.returned, { q with joined := true })
    | (.thrown, q) => (.thrown, q)
    | (.blocked, q) => (.blocked, q)
  else (.returned, { p with joined := true })

def call : Call → Ending × Platform
  | .asyncRun => Enclave.asyncRun env p
  | .join => p.join env

/-- The calls before the destruction. One that blocks is the last one. -/
def callAll : List (Call × Environment) → Platform → Ending × Platform
  | [], p => (.returned, p)
  | (c, env) :: rest, p =>
    match p.call env c with
    | (.returned, q) => callAll rest q
    | (.thrown, q) => callAll rest q
    | (.blocked, q) => (.blocked, q)

/-- The destructor: its body, and then the one of the member `instance`. -/
def destroy (env' : Environment) : Ending × Platform :=
  match (if !p.joined then p.join env else (.returned, p)) with
  | (.returned, q) => Enclave.deletePipeListener env' q
  | (.thrown, q) => (.thrown, q)
  | (.blocked, q) => (.blocked, q)

end Platform

/-- How the life of a platform ends. -/
inductive Fate where
  | completed
  | terminated
  | blocked
  deriving DecidableEq, Repr

/-- What the ending of a destructor means for the program. -/
def Ending.fate : Ending → Fate
  | returned => .completed
  | thrown => .terminated
  | blocked => .blocked

/-- The calls on a platform and its destruction, with the environments of the two joins that the
destruction may make: the fate of the program and what has happened to the thread. -/
def lifetime (calls : List (Call × Environment)) (env env' : Environment) :
    Fate × List ThreadEvent :=
  let run := Platform.callAll calls Platform.initial
  if run.1 = .blocked then (.blocked, run.2.log)
  else
    let last := run.2.destroy env env'
    (last.1.fate, last.2.log)

/-- The thread is joined once, while it is joinable, and then deleted. -/
def JoinedOnce (log : List ThreadEvent) : Prop := log = [.join true, .deleted]

instance (log : List ThreadEvent) : Decidable (JoinedOnce log) :=
  inferInstanceAs (Decidable (log = _))

/-! ### Runs -/

/-- Between two calls the platform knows whether the thread has been joined. -/
inductive Platform.Tracked (p : Platform) : Prop
  | fresh (joined : p.joined = false) (joinable : p.joinable = true) (log : p.log = [])
  | joined (joined : p.joined = true) (joinable : p.joinable = false) (log : p.log = [.join true])

/-- A call that blocks has made at most one join. -/
def AtMostOneJoin (log : List ThreadEvent) : Prop := log = [] ∨ log = [.join true]

theorem Platform.Tracked.atMostOneJoin {p : Platform} (h : p.Tracked) : AtMostOneJoin p.log := by
  cases h with
  | fresh _ _ log => exact .inl log
  | joined _ _ log => exact .inr log

namespace Enclave

variable {env : Environment} {p q : Platform} {ending : Ending}

/-- The ways in which joining a thread that is joinable can end. -/
theorem join_cases (joinable : p.joinable = true) (run : join env p = (ending, q)) :
    (ending = .thrown ∧ q = p) ∨
    (ending = .blocked ∧ (q.log = p.log ∨ q.log = p.log ++ [.join true])) ∨
    (ending = .returned ∧ q.joinable = false ∧ q.log = p.log ++ [.join true]) := by
  rw [join] at run
  split at run
  next =>
    cases run
    exact .inl ⟨rfl, rfl⟩
  next =>
    split at run
    next =>
      cases run
      exact .inr (.inl ⟨rfl, .inl rfl⟩)
    next =>
      rw [joinThread] at run
      simp only [joinable, Bool.not_true, Bool.false_eq_true, if_false] at run
      split at run
      next =>
        cases run
        exact .inr (.inr ⟨rfl, rfl, rfl⟩)
      next =>
        cases run
        exact .inr (.inl ⟨rfl, .inr rfl⟩)

/-- The deleter runs on a thread that has been joined: its join throws, and nothing is deleted. -/
theorem deletePipeListener_of_joined (env : Environment) (joined : p.joinable = false) :
    ∃ q, deletePipeListener env p = (.thrown, q) ∧ q.log = p.log ++ [.join false] := by
  refine ⟨{ p with finished := true, log := p.log ++ [.join p.joinable] }, ?_, ?_⟩
  · simp [deletePipeListener, joinThread, joined]
  · rw [joined]

end Enclave

namespace Platform

variable {env env' : Environment} {p q : Platform} {ending : Ending}

/-- What a call of the platform's `join` leaves: it returns only when the thread has been joined. -/
theorem join_spec (h : p.Tracked) (run : p.join env = (ending, q)) :
    (ending = .blocked ∧ AtMostOneJoin q.log) ∨ (ending = .thrown ∧ q.Tracked ∧ q.log = []) ∨
      (ending = .returned ∧ q.joinable = false ∧ q.joined = true ∧ q.log = [.join true]) := by
  rw [join] at run
  cases h with
  | joined joined joinable log =>
    simp only [joined, Bool.not_true, Bool.false_eq_true, if_false] at run
    cases run
    exact .inr (.inr ⟨rfl, joinable, rfl, log⟩)
  | fresh joined joinable log =>
    simp only [joined, Bool.not_false, if_true] at run
    rcases inner : Enclave.join env p with ⟨result, r⟩
    rw [inner] at run
    obtain ⟨rfl, rfl⟩ | ⟨rfl, kept⟩ | ⟨rfl, done, once⟩ := Enclave.join_cases joinable inner
    · cases run
      exact .inr (.inl ⟨rfl, .fresh joined joinable log, log⟩)
    · cases run
      rw [log, List.nil_append] at kept
      exact .inl ⟨rfl, kept⟩
    · cases run
      rw [log, List.nil_append] at once
      exact .inr (.inr ⟨rfl, done, rfl, once⟩)

/-- One call keeps the relation, or blocks. -/
theorem call_spec {c : Call} (h : p.Tracked) (run : p.call env c = (ending, q)) :
    (ending = .blocked ∧ AtMostOneJoin q.log) ∨ (ending ≠ .blocked ∧ q.Tracked) := by
  cases c with
  | asyncRun =>
    have once := h.atMostOneJoin
    rw [call, Enclave.asyncRun] at run
    split at run
    next =>
      cases run
      refine .inr ⟨by decide, ?_⟩
      cases h with
      | fresh joined joinable log => exact .fresh joined joinable log
      | joined joined joinable log => exact .joined joined joinable log
    next =>
      cases run
      exact .inr ⟨by decide, h⟩
    next =>
      cases run
      exact .inl ⟨rfl, once⟩
  | join =>
    obtain blocked | ⟨rfl, kept, -⟩ | ⟨rfl, joinable, joined, log⟩ := join_spec h run
    · exact .inl blocked
    · exact .inr ⟨by decide, kept⟩
    · exact .inr ⟨by decide, .joined joined joinable log⟩

theorem callAll_spec {calls : List (Call × Environment)} (h : p.Tracked)
    (run : callAll calls p = (ending, q)) :
    (ending = .blocked ∧ AtMostOneJoin q.log) ∨ (ending ≠ .blocked ∧ q.Tracked) := by
  induction calls generalizing p with
  | nil =>
    cases run
    exact .inr ⟨by decide, h⟩
  | cons first rest ih =>
    obtain ⟨c, env⟩ := first
    rw [callAll] at run
    rcases step : p.call env c with ⟨result, r⟩
    rw [step] at run
    obtain ⟨rfl, once⟩ | ⟨more, kept⟩ := call_spec h step
    · cases run
      exact .inl ⟨rfl, once⟩
    · cases result with
      | returned => exact ih kept run
      | thrown => exact ih kept run
      | blocked => exact absurd rfl more

/-- The destructor never gets to delete the thread: it blocks or throws before the deleter runs, or
the deleter joins the thread again. -/
theorem destroy_spec (h : p.Tracked) (run : p.destroy env env' = (ending, q)) :
    (ending = .blocked ∧ AtMostOneJoin q.log) ∨ (ending = .thrown ∧ q.log = []) ∨
      (ending = .thrown ∧ q.log = [.join true, .join false]) := by
  have last : ∀ r : Platform, r.joinable = false → r.log = [.join true] →
      Enclave.deletePipeListener env' r = (ending, q) →
      ending = .thrown ∧ q.log = [.join true, .join false] := by
    intro r joinable log deleter
    obtain ⟨t, thrown, again⟩ := Enclave.deletePipeListener_of_joined env' joinable
    cases deleter.symm.trans thrown
    rw [log] at again
    exact ⟨rfl, again⟩
  rw [destroy] at run
  by_cases joined : p.joined = true
  · rw [joined] at run
    cases h with
    | fresh fresh _ _ => exact absurd (joined.symm.trans fresh) (by decide)
    | joined _ joinable log => exact .inr (.inr (last p joinable log run))
  · rw [Bool.not_eq_true] at joined
    simp only [joined, Bool.not_false, if_true] at run
    rcases inner : p.join env with ⟨result, r⟩
    rw [inner] at run
    obtain ⟨rfl, once⟩ | ⟨rfl, -, none⟩ | ⟨rfl, joinable, -, log⟩ := join_spec h inner
    · cases run
      exact .inl ⟨rfl, once⟩
    · cases run
      exact .inr (.inl ⟨rfl, none⟩)
    · exact .inr (.inr (last r joinable log run))

end Platform

/-- The ways in which the life of a platform can end. -/
theorem lifetime_cases (calls : List (Call × Environment)) (env env' : Environment) :
    (∃ log, lifetime calls env env' = (.blocked, log) ∧ AtMostOneJoin log) ∨
      lifetime calls env env' = (.terminated, []) ∨
      lifetime calls env env' = (.terminated, [.join true, .join false]) := by
  have start : Platform.initial.Tracked := .fresh rfl rfl rfl
  rcases run : Platform.callAll calls Platform.initial with ⟨ending, p⟩
  rw [lifetime, run]
  obtain ⟨rfl, once⟩ | ⟨more, tracked⟩ := Platform.callAll_spec start run
  · exact .inl ⟨p.log, rfl, once⟩
  · simp only [if_neg more]
    rcases last : p.destroy env env' with ⟨result, q⟩
    obtain ⟨rfl, once⟩ | ⟨rfl, none⟩ | ⟨rfl, twice⟩ := Platform.destroy_spec tracked last
    · exact .inl ⟨q.log, rfl, once⟩
    · exact .inr (.inl (by rw [none]; rfl))
    · exact .inr (.inr (by rw [twice]; rfl))

/-- In no life of a platform is the listener joined once and then deleted: the program blocks in a
call, or it is terminated before the listener is joined, or when the deleter joins it again. -/
theorem listener_never_joined_once (calls : List (Call × Environment)) (env env' : Environment) :
    ¬ JoinedOnce (lifetime calls env env').2 ∧
      ((lifetime calls env env').1 = .blocked ∨
        lifetime calls env env' = (.terminated, []) ∨
        lifetime calls env env' = (.terminated, [.join true, .join false])) := by
  obtain ⟨log, ended, none | once⟩ | ended | ended := lifetime_cases calls env env'
  · rw [ended, none]
    exact ⟨by decide, .inl rfl⟩
  · rw [ended, once]
    exact ⟨by decide, .inl rfl⟩
  · rw [ended]
    exact ⟨by decide, .inr (.inl rfl)⟩
  · rw [ended]
    exact ⟨by decide, .inr (.inr rfl)⟩

/-- The enclave is started and runs to its end, and the caller joins it: the destruction joins the
thread a second time and terminates the program. -/
theorem listener_joined_twice :
    lifetime [(.asyncRun, ⟨.returned, true, true, true⟩), (.join, ⟨.returned, true, true, true⟩)]
      ⟨.returned, true, true, true⟩ ⟨.returned, true, true, true⟩ =
      (.terminated, [.join true, .join false]) := by
  decide

end Monza.HcsListener
