import Mathlib.Logic.Function.Basic
import Mathlib.Tactic.Simps.Basic
import Monza.Lib.Transition

/-!
# Running an initializer once

`CustomOnceImpl::execute` keeps the progress of an initializer in one word of three values. The
callers that find it unfinished compete for it with a compare-exchange; the winner calls the
initializer and the others spin until it is done. A caller may be a thread, or a call that the
initializer itself makes on the same flag; any number of them run, each as often as it likes.

The initializer is not modelled. It may return, throw or never end. What is expected of `execute`
is a small system of its own, in which the initializer begins once, completes, and only then calls
return; the runs of the code are shown to be runs of this system.
-/

namespace Monza.Once

open Transition

/-- `CustomOnceImpl::Status`. -/
inductive Status where
  | idle
  | doing
  | done
  deriving DecidableEq, Repr

/-! ### What is expected -/

/-- What can be observed of a flag. -/
inductive Observation where
  | began
  | completed
  | returned
  deriving DecidableEq, Repr

/-- The progress of the initializer, and the observations that are possible in it. -/
inductive Spec : Status → Observation → Status → Prop
  | began : Spec .idle .began .doing
  | completed : Spec .doing .completed .done
  | returned : Spec .done .returned .done

namespace Spec

variable {x y : Status} {os before after : List Observation}

theorem no_began_of_ne_idle (run : Run Spec x os y) (progress : x ≠ .idle) :
    os.count .began = 0 := by
  induction run with
  | nil x => rfl
  | cons first _ ih =>
    cases first with
    | began => exact absurd rfl progress
    | completed => simpa using ih (by decide)
    | returned => simpa using ih (by decide)

theorem count_began_le (run : Run Spec .idle os y) : os.count .began ≤ 1 := by
  cases run with
  | nil => exact Nat.zero_le 1
  | cons first rest =>
    cases first
    have none := no_began_of_ne_idle rest (by decide)
    simp [none]

/-- Before the initializer has completed nothing returns. -/
theorem completed_mem (run : Run Spec x os y) (progress : x ≠ .done) (final : y = .done) :
    Observation.completed ∈ os := by
  induction run with
  | nil x => exact absurd final progress
  | cons first _ ih =>
    cases first with
    | began => exact List.mem_cons_of_mem _ (ih (by decide) final)
    | completed => exact List.mem_cons_self
    | returned => exact absurd rfl progress

theorem completed_before_returned (run : Run Spec .idle (before ++ .returned :: after) y) :
    Observation.completed ∈ before := by
  obtain ⟨x, front, back⟩ := run.of_append
  cases back with
  | cons first _ =>
    cases first
    exact completed_mem front (by decide) rfl

end Spec

/-! ### The code -/

/-- Where a caller is in `execute`. -/
inductive Phase where
  | outside
  | load
  | exchange
  | start
  | init
  | store
  | spin
  | leave
  deriving DecidableEq, Repr

/-- The steps of a caller. `raise` is an exception of the initializer, which leaves `execute`. -/
inductive Event (ι : Type*) where
  | call (w : ι)
  | load (w : ι)
  | exchange (w : ι)
  | start (w : ι)
  | finish (w : ι)
  | raise (w : ι)
  | store (w : ι)
  | spin (w : ι)
  | leave (w : ι)
  deriving DecidableEq, Repr

/-- What an event shows. -/
def Event.observed {ι : Type*} : Event ι → Option Observation
  | start _ => some .began
  | finish _ => some .completed
  | leave _ => some .returned
  | _ => none

structure State (ι : Type*) where
  control : Status
  phase : ι → Phase

variable {ι : Type*} [DecidableEq ι]

namespace State

/-- A flag of zero. -/
def initial : State ι := ⟨.idle, fun _ => .outside⟩

variable (s : State ι)

@[simps] def moveTo (w : ι) (phase : Phase) : State ι :=
  { s with phase := Function.update s.phase w phase }

@[simps!] def setControl (w : ι) (phase : Phase) (control : Status) : State ι :=
  { s.moveTo w phase with control := control }

/-- A step that a caller takes from one phase only. -/
def whenIn (w : ι) (phase : Phase) (t : State ι) : Option (State ι) :=
  if s.phase w = phase then some t else none

def step : Event ι → Option (State ι)
  | .call w => s.whenIn w .outside (s.moveTo w .load)
  -- The fast path.
  | .load w => s.whenIn w .load (s.moveTo w (if s.control = .done then .leave else .exchange))
  | .exchange w =>
    s.whenIn w .exchange
      (if s.control = .idle then s.setControl w .start .doing else s.moveTo w .spin)
  | .start w => s.whenIn w .start (s.moveTo w .init)
  | .finish w => s.whenIn w .init (s.moveTo w .store)
  | .raise w => s.whenIn w .init (s.moveTo w .outside)
  | .store w => s.whenIn w .store (s.setControl w .leave .done)
  | .spin w => s.whenIn w .spin (s.moveTo w (if s.control ≠ .done then .spin else .leave))
  | .leave w => s.whenIn w .leave (s.moveTo w .outside)

variable {s} {t : State ι}

omit [DecidableEq ι] in
theorem whenIn_eq_some {w : ι} {phase : Phase} {u : State ι} :
    s.whenIn w phase u = some t ↔ s.phase w = phase ∧ u = t := by
  simp [whenIn]

end State

/-- How far the initializer is while the caller that runs it is in a phase. -/
def Phase.progress : Phase → Option Status
  | start => some .idle
  | init => some .doing
  | store => some .done
  | _ => none

/-- The flag and the phases of its callers agree with the progress of the initializer. At most one
caller has won the compare-exchange and not yet stored the result; the flag is `doing` meanwhile,
and stays so if the initializer has thrown. -/
structure Refines (s : State ι) (x : Status) : Prop where
  alone : ∀ w v, (s.phase w).progress ≠ none → v ≠ w → (s.phase v).progress = none
  winner : ∀ w q, (s.phase w).progress = some q → s.control = .doing ∧ x = q
  idle : s.control = .idle → x = .idle
  done : s.control = .done → x = .done
  leaving : ∀ w, s.phase w = .leave → s.control = .done

namespace Refines

variable {s t : State ι} {x q : Status} {w : ι} {phase : Phase}

omit [DecidableEq ι] in
theorem initial : Refines (State.initial : State ι) .idle where
  alone w v won := absurd rfl won
  winner w q won := by cases won
  idle _ := rfl
  done control := by cases control
  leaving w leave := by cases leave

omit [DecidableEq ι] in
/-- While the flag is idle no caller has won. -/
theorem progress_eq_none (h : Refines s x) (control : s.control ≠ .doing) (v : ι) :
    (s.phase v).progress = none := by
  cases won : (s.phase v).progress with
  | none => rfl
  | some q => exact absurd (h.winner v q won).1 control

/-- A caller that does not run the initializer moves, or gives it up. -/
theorem moveTo (h : Refines s x) (other : phase.progress = none)
    (leave : phase = .leave → s.control = .done) : Refines (s.moveTo w phase) x where
  alone v u won apart := by
    have kept : ∀ v, ((s.moveTo w phase).phase v).progress = none ∨
        ((s.moveTo w phase).phase v).progress = (s.phase v).progress :=
      (Function.forall_update_iff s.phase
        (fun v p => p.progress = none ∨ p.progress = (s.phase v).progress)).mpr
        ⟨.inl other, fun _ _ => .inr rfl⟩
    have before : (s.phase v).progress ≠ none := by
      intro none
      exact won ((kept v).elim id (fun same => same.trans none))
    exact (kept u).elim id (fun same => same.trans (h.alone v u before apart))
  winner := (Function.forall_update_iff s.phase
    (fun _ p => ∀ q, p.progress = some q → s.control = .doing ∧ x = q)).mpr
      ⟨fun q won => absurd (other.symm.trans won) (Option.some_ne_none q).symm,
        fun v _ => h.winner v⟩
  idle := h.idle
  done := h.done
  leaving := (Function.forall_update_iff s.phase (fun _ p => p = .leave → s.control = .done)).mpr
    ⟨leave, fun v _ => h.leaving v⟩

omit [DecidableEq ι] in
/-- The relation when no caller but one can run the initializer. -/
theorem of_others (others : ∀ v, v ≠ w → (t.phase v).progress = none)
    (own : ∀ q, (t.phase w).progress = some q → t.control = .doing ∧ x = q)
    (idle : t.control = .idle → x = .idle) (done : t.control = .done → x = .done)
    (leaving : ∀ v, t.phase v = .leave → t.control = .done) : Refines t x where
  alone v u won apart := by
    have same : v = w := by
      by_contra other
      exact won (others v other)
    exact others u (same ▸ apart)
  winner v q won := by
    have same : v = w := by
      by_contra other
      rw [others v other] at won
      cases won
    subst same
    exact own q won
  idle := idle
  done := done
  leaving := leaving

/-- The caller that has won goes on, with the progress of its new phase. -/
theorem advance (h : Refines s x) (won : (s.phase w).progress ≠ none)
    (next : phase.progress = some q) : Refines (s.moveTo w phase) q := by
  have control : s.control = .doing := by
    obtain ⟨p, some⟩ := Option.ne_none_iff_exists'.mp won
    exact (h.winner w p some).1
  refine of_others (w := w) ?_ ?_ ?_ ?_ ?_
  · intro v other
    rw [State.moveTo_phase, Function.update_of_ne other]
    exact h.alone w v won other
  · intro p own
    rw [State.moveTo_phase, Function.update_self, next] at own
    exact ⟨control, Option.some.inj own⟩
  · intro idle
    cases control.symm.trans idle
  · intro done
    cases control.symm.trans done
  · refine (Function.forall_update_iff s.phase (fun _ p => p = .leave → s.control = .done)).mpr
      ⟨?_, fun v _ => h.leaving v⟩
    rintro rfl
    cases next

/-- The compare-exchange succeeds. -/
theorem exchange (h : Refines s x) (idle : s.control = .idle) :
    Refines (s.setControl w .start .doing) x := by
  have none := h.progress_eq_none (by rw [idle]; decide)
  refine of_others (w := w) ?_ ?_ ?_ ?_ ?_
  · intro v other
    rw [State.setControl_phase, Function.update_of_ne other]
    exact none v
  · intro p own
    rw [State.setControl_phase, Function.update_self] at own
    exact ⟨rfl, (h.idle idle).trans (Option.some.inj own)⟩
  · intro control
    cases control
  · intro control
    cases control
  · intro v leave
    by_cases same : v = w
    · subst same
      rw [State.setControl_phase, Function.update_self] at leave
      cases leave
    · rw [State.setControl_phase, Function.update_of_ne same] at leave
      cases idle.symm.trans (h.leaving v leave)

/-- The winner stores the result. -/
theorem store (h : Refines s x) (won : s.phase w = .store) :
    Refines (s.setControl w .leave .done) x := by
  have progress : (s.phase w).progress = some .done := by rw [won]; rfl
  refine of_others (w := w) ?_ ?_ ?_ (fun _ => (h.winner w _ progress).2) (fun _ _ => rfl)
  · intro v other
    rw [State.setControl_phase, Function.update_of_ne other]
    exact h.alone w v (by rw [progress]; exact Option.some_ne_none _) other
  · intro p own
    rw [State.setControl_phase, Function.update_self] at own
    cases own
  · intro control
    cases control

theorem hidden {e : Event ι} (h : Refines s x) (taken : s.step e = some t)
    (silent : e.observed = none) : Refines t x := by
  cases e with
  | call w =>
    obtain ⟨-, rfl⟩ := State.whenIn_eq_some.mp taken
    exact h.moveTo rfl (fun leave => by cases leave)
  | load w =>
    obtain ⟨-, rfl⟩ := State.whenIn_eq_some.mp taken
    by_cases done : s.control = .done
    · rw [if_pos done]
      exact h.moveTo rfl (fun _ => done)
    · rw [if_neg done]
      exact h.moveTo rfl (fun leave => by cases leave)
  | exchange w =>
    obtain ⟨-, rfl⟩ := State.whenIn_eq_some.mp taken
    by_cases idle : s.control = .idle
    · rw [if_pos idle]
      exact h.exchange idle
    · rw [if_neg idle]
      exact h.moveTo rfl (fun leave => by cases leave)
  | raise w =>
    obtain ⟨-, rfl⟩ := State.whenIn_eq_some.mp taken
    exact h.moveTo rfl (fun leave => by cases leave)
  | store w =>
    obtain ⟨won, rfl⟩ := State.whenIn_eq_some.mp taken
    exact h.store won
  | spin w =>
    obtain ⟨-, rfl⟩ := State.whenIn_eq_some.mp taken
    by_cases done : s.control = .done
    · rw [if_neg (not_not_intro done)]
      exact h.moveTo rfl (fun _ => done)
    · rw [if_pos done]
      exact h.moveTo rfl (fun leave => by cases leave)
  | start w => cases silent
  | finish w => cases silent
  | leave w => cases silent

theorem shown {e : Event ι} {o : Observation} (h : Refines s x) (taken : s.step e = some t)
    (seen : e.observed = some o) : ∃ y, Spec x o y ∧ Refines t y := by
  cases e with
  | start w =>
    obtain ⟨won, rfl⟩ := State.whenIn_eq_some.mp taken
    have progress : (s.phase w).progress = some .idle := by rw [won]; rfl
    obtain ⟨-, rfl⟩ := h.winner w _ progress
    cases seen
    exact ⟨.doing, .began, h.advance (by rw [progress]; exact Option.some_ne_none _) rfl⟩
  | finish w =>
    obtain ⟨won, rfl⟩ := State.whenIn_eq_some.mp taken
    have progress : (s.phase w).progress = some .doing := by rw [won]; rfl
    obtain ⟨-, rfl⟩ := h.winner w _ progress
    cases seen
    exact ⟨.done, .completed, h.advance (by rw [progress]; exact Option.some_ne_none _) rfl⟩
  | leave w =>
    obtain ⟨left, rfl⟩ := State.whenIn_eq_some.mp taken
    obtain rfl := h.done (h.leaving w left)
    cases seen
    exact ⟨.done, .returned, h.moveTo rfl (fun leave => by cases leave)⟩
  | call w => cases seen
  | load w => cases seen
  | exchange w => cases seen
  | raise w => cases seen
  | store w => cases seen
  | spin w => cases seen

/-- The runs of the code are runs of the expected system. -/
theorem run {events : List (Event ι)}
    (run : Run (Within (fun _ _ => True) State.step) State.initial events s) :
    ∃ y, Run Spec .idle (events.filterMap Event.observed) y ∧ Refines s y :=
  run.simulation Refines Event.observed
    (fun _ _ _ _ related taken silent => related.hidden taken.2 silent)
    (fun _ _ _ _ _ related taken seen => related.shown taken.2 seen) Refines.initial

/-- The flag changes only from idle to doing and from doing to done. -/
theorem control_step {e : Event ι} (h : Refines s x) (taken : s.step e = some t) :
    t.control = s.control ∨ (s.control = .idle ∧ t.control = .doing) ∨
      (s.control = .doing ∧ t.control = .done) := by
  cases e with
  | exchange w =>
    obtain ⟨-, rfl⟩ := State.whenIn_eq_some.mp taken
    by_cases idle : s.control = .idle
    · rw [if_pos idle]
      exact .inr (.inl ⟨idle, rfl⟩)
    · rw [if_neg idle]
      exact .inl rfl
  | store w =>
    obtain ⟨won, rfl⟩ := State.whenIn_eq_some.mp taken
    exact .inr (.inr ⟨(h.winner w .done (by rw [won]; rfl)).1, rfl⟩)
  | call w | load w | start w | finish w | raise w | spin w | leave w =>
    obtain ⟨-, rfl⟩ := State.whenIn_eq_some.mp taken
    exact .inl rfl

end Refines

/-- For any callers of `execute` on a flag of zero and any interleaving of their steps: the
initializer is started at most once, the flag goes from idle to doing to done, and no call returns
before the initializer has completed. -/
theorem execute_runs_init_once {events : List (Event ι)} {s : State ι}
    (run : Run (Within (fun _ _ => True) State.step) State.initial events s) :
    (events.filterMap Event.observed).count .began ≤ 1 ∧
    (∀ before e after t u, events = before ++ e :: after →
      Run (Within (fun _ _ => True) State.step) State.initial before t → t.step e = some u →
      u.control = t.control ∨ (t.control = .idle ∧ u.control = .doing) ∨
        (t.control = .doing ∧ u.control = .done)) ∧
    ∀ before w after, events = before ++ .leave w :: after → ∃ v, .finish v ∈ before := by
  obtain ⟨y, expected, -⟩ := Refines.run run
  refine ⟨Spec.count_began_le expected, ?_, ?_⟩
  · rintro before e after t u rfl reached taken
    obtain ⟨x, -, related⟩ := Refines.run reached
    exact related.control_step taken
  · rintro before w after rfl
    have returned : (Event.leave w).observed = some .returned := rfl
    rw [List.filterMap_append, List.filterMap_cons_some returned] at expected
    obtain ⟨e, mem, seen⟩ := List.mem_filterMap.mp (Spec.completed_before_returned expected)
    cases e with
    | finish v => exact ⟨v, mem⟩
    | call v | load v | exchange v | start v | raise v | store v | spin v | leave v => cases seen

/-- Two threads compete; the second one spins until the first one has stored its result, and a
third call takes the fast path. -/
def sampleCalls : List (Event Bool) :=
  [.call true, .call false, .load true, .load false, .exchange true, .exchange false, .start true,
    .spin false, .finish true, .spin false, .store true, .spin false, .leave false, .leave true,
    .call false, .load false, .leave false]

theorem execute_runs_init_once_sample : ∃ s : State Bool,
    Run (Within (fun _ _ => True) State.step) State.initial sampleCalls s ∧ s.control = .done ∧
      (sampleCalls.filterMap Event.observed).count .began ≤ 1 := by
  have done : (simulate (fun _ _ => True) State.step sampleCalls State.initial).map
      (fun s => s.control) = some .done := by decide
  obtain ⟨s, hs, control⟩ := Option.map_eq_some_iff.mp done
  have run := simulate_run hs
  exact ⟨s, run, control, (execute_runs_init_once run).1⟩

end Monza.Once
