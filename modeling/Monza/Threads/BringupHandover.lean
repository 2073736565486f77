import Monza.Threads.BringupInvariant

/-!
# The cores are started as the hand-over takes it

The hand-over of functions starts a core in one step of the main thread. With all the loads and
stores of the start, that step is the store of the core to `finished_with_current`: the core then
counts as started although it has not come to `ap_reset`, and the main thread as gone on although
it has not seen the flag. Every other step of the start is hidden from the hand-over.
-/

namespace Monza.Bringup

open Transition

/-! ### The hand-over below the start of the cores

A core that has set the flag is started for the hand-over, and the main thread has taken the step
that starts it. -/

section Handover

variable {φ α : Type} {P : Handover.Platform φ α} (h : Handover.State φ α)

/-- The cores of a set are at the start of `ap_reset`. -/
@[simps] def startCores (started : Nat → Bool) : Handover.State φ α :=
  { h with core := fun c => if started c then .start else h.core c }

variable {h} {started : Nat → Bool}

/-- The steps of a thread do not depend on the cores, but for the one that starts a core. -/
theorem stepThread_startCores {w : Nat} (other : ∀ i, h.thread w ≠ .initReset i) :
    (startCores h started).stepThread P w = (h.stepThread P w).map (startCores · started) := by
  unfold Handover.State.stepThread
  rw [startCores_thread]
  cases here : h.thread w with
  | initReset i => exact absurd here (other i)
  | addLoop i f a =>
      simp only
      split <;> rfl
  | addWait i f a =>
      simp only [startCores_context]
      split <;> rfl
  | _ => rfl

/-- The steps of a thread do not depend on where another thread is. -/
theorem stepThread_setThread {v w : Nat} (ne : w ≠ v) (x : Handover.Thread φ α) :
    (h.setThread v x).stepThread P w = (h.stepThread P w).map (·.setThread v x) := by
  have same : (h.setThread v x).thread w = h.thread w := Function.update_of_ne ne _ _
  have comm := fun p => Function.update_comm ne.symm x p h.thread
  cases here : h.thread w with
  | idle => simp only [Handover.State.stepThread, same, here, Option.map_none]
  | exited => simp only [Handover.State.stepThread, same, here, Option.map_none]
  | addLoop i f a =>
      simp only [Handover.State.stepThread, same, here]
      simp only [Handover.State.returnId, Handover.State.setThread, comm]
      split <;> rfl
  | addWait i f a =>
      simp only [Handover.State.stepThread, same, here, Handover.State.setThread_context]
      simp only [Handover.State.returnId, Handover.State.setThread, comm]
      split <;> rfl
  | exitDecrement =>
      simp only [Handover.State.stepThread, same, here]
      obtain ⟨n, eq⟩ : ∃ n, n = sub64 h.executing 1 := ⟨_, rfl⟩
      rw [Handover.State.setThread_executing, ← eq]
      simp only [Handover.State.setThread, comm, Option.map_some]
  | _ =>
      simp only [Handover.State.stepThread, same, here, Handover.State.setThread_context,
        Handover.State.setThread_executing]
      simp only [Handover.State.setThread, Handover.State.setContext, Handover.State.setCore,
        Handover.State.storeCode, comm, Option.map_some]

/-- The steps of a core do not depend on the others. -/
theorem stepCore_startCores {c : Nat} (other : started c = false) :
    (startCores h started).stepCore c = (h.stepCore c).map (startCores · started) := by
  have same : (startCores h started).core c = h.core c := by simp [other]
  have comm : ∀ p : Handover.Core φ α,
      Function.update (fun d => if started d then .start else h.core d) c p =
        fun d => if started d then .start else Function.update h.core c p d := by
    intro p
    funext d
    by_cases eq : d = c
    · subst eq
      simp [other]
    · simp [Function.update_of_ne eq]
  unfold Handover.State.stepCore
  rw [same]
  cases here : h.core c with
  | off => rfl
  | loop =>
      simp only [startCores, Handover.State.setCore, comm]
      split <;> rfl
  | running f a =>
      simp only [startCores, Handover.State.setCore, comm]
      split <;> rfl
  | increment f a =>
      obtain ⟨n, eq⟩ : ∃ n, n = u64 (h.executing + 1) := ⟨_, rfl⟩
      rw [startCores_executing, ← eq]
      simp only [startCores, Handover.State.setCore, comm, Option.map_some]
  | decrement =>
      obtain ⟨n, eq⟩ : ∃ n, n = sub64 h.executing 1 := ⟨_, rfl⟩
      rw [startCores_executing, ← eq]
      simp only [startCores, Handover.State.setCore, comm, Option.map_some]
  | _ =>
      simp only [startCores, Handover.State.setCore, Handover.State.setContext, comm,
        Option.map_some]

/-- The steps of a core depend on a thread only in whether it is in a call of the library. -/
theorem stepCore_setThread {c v : Nat} {x : Handover.Thread φ α}
    (active : x.active = (h.thread v).active) :
    (h.setThread v x).stepCore c = (h.stepCore c).map (·.setThread v x) := by
  have same : ((h.setThread v x).thread c).active = (h.thread c).active := by
    by_cases eq : c = v
    · subst eq
      simp [active]
    · simp [Function.update_of_ne eq]
  cases here : h.core c with
  | off => simp only [Handover.State.stepCore, Handover.State.setThread_core, here, Option.map_none]
  | loop =>
      simp only [Handover.State.stepCore, Handover.State.setThread_core, here,
        Handover.State.setThread_context]
      split <;> rfl
  | running f a =>
      simp only [Handover.State.stepCore, Handover.State.setThread_core, here, same]
      split <;> rfl
  | increment f a =>
      simp only [Handover.State.stepCore, Handover.State.setThread_core, here]
      obtain ⟨n, eq⟩ : ∃ n, n = u64 (h.executing + 1) := ⟨_, rfl⟩
      rw [Handover.State.setThread_executing, ← eq]
      rfl
  | decrement =>
      simp only [Handover.State.stepCore, Handover.State.setThread_core, here]
      obtain ⟨n, eq⟩ : ∃ n, n = sub64 h.executing 1 := ⟨_, rfl⟩
      rw [Handover.State.setThread_executing, ← eq]
      rfl
  | _ =>
      simp only [Handover.State.stepCore, Handover.State.setThread_core, here]
      rfl

end Handover

/-! ### The simulation -/

namespace State

variable {φ α : Type} {P : Platform φ α} {s t : State φ α} {c : Nat}

/-- Where the main thread is for the hand-over. -/
def mainThread (s : State φ α) : Handover.Thread φ α :=
  match s.handover.thread 0 with
  | .initReset i => if (s.boot i).finished then .initLoop (i + 1) else .initReset i
  | p => p

/-- The state of the hand-over, in which a core is started by its store to the flag. -/
def abstract (s : State φ α) : Handover.State φ α :=
  (startCores s.handover fun c => (s.boot c).leaving).setThread 0 s.mainThread

theorem mainThread_active (s : State φ α) :
    s.mainThread.active = (s.handover.thread 0).active := by
  unfold mainThread
  split
  next here =>
    rw [here]
    split <;> rfl
  next => rfl

theorem mainThread_eq (h : ∀ i, s.handover.thread 0 = .initReset i → (s.boot i).finished = false) :
    s.mainThread = s.handover.thread 0 := by
  unfold mainThread
  split
  next i here =>
    rw [here, h i here]
    rfl
  next => rfl

theorem abstract_eq (h : ∀ i, s.handover.thread 0 = .initReset i → (s.boot i).finished = false) :
    s.abstract = startCores s.handover fun c => (s.boot c).leaving := by
  unfold abstract Handover.State.setThread
  rw [mainThread_eq h]
  exact congrArg (fun thread => ({ startCores s.handover _ with thread } : Handover.State φ α))
    (Function.update_eq_self 0 s.handover.thread)

/-- Only the flag and the jump to `ap_reset` show in the hand-over. -/
theorem abstract_congr (handover : t.handover = s.handover)
    (leaving : ∀ c, (t.boot c).leaving = (s.boot c).leaving)
    (finished : ∀ c, (t.boot c).finished = (s.boot c).finished) : t.abstract = s.abstract := by
  unfold abstract mainThread
  simp only [handover, leaving, finished]

theorem abstract_setBoot {b : Boot} (handover : t.handover = s.handover)
    (boot : t.boot = Function.update s.boot c b) (leaving : b.leaving = (s.boot c).leaving)
    (finished : b.finished = (s.boot c).finished) : t.abstract = s.abstract := by
  refine abstract_congr handover (fun d => ?_) fun d => ?_ <;> rw [boot] <;> by_cases same : d = c
  · simp [same, leaving]
  · simp [Function.update_of_ne same]
  · simp [same, finished]
  · simp [Function.update_of_ne same]

/-- A thread that is in the application calls the library. -/
theorem abstract_setThread {w : Nat} {p : Handover.Thread φ α} (idle : s.handover.thread w = .idle)
    (other : ∀ i, p ≠ .initReset i) : s.abstract.setThread w p =
      ({ s with handover := s.handover.setThread w p } : State φ α).abstract := by
  unfold abstract
  by_cases main : w = 0
  · subst main
    rw [mainThread_eq (s := { s with handover := s.handover.setThread 0 p }) fun i here =>
      absurd (by simpa using here) (other i)]
    simp only [Handover.State.setThread, startCores, Function.update_idem, Function.update_self]
  · have same : ({ s with handover := s.handover.setThread w p } : State φ α).mainThread =
        s.mainThread := by
      simp only [mainThread, Handover.State.setThread, Function.update_of_ne (Ne.symm main)]
    rw [same]
    simp only [Handover.State.setThread, startCores, Function.update_comm (Ne.symm main)]

/-- A core that runs a function is the same core for the hand-over. -/
theorem Inv.abstract_runs (h : Inv P s) {w : Nat} (runs : s.handover.runs w = true) :
    s.abstract.runs w = true := by
  cases w with
  | zero => rfl
  | succ v =>
      have ready : s.boot (v + 1) = .ready := (h.core (v + 1)).resolve_right fun off => by
        simp [Handover.State.runs, off] at runs
      have core : s.abstract.core (v + 1) = s.handover.core (v + 1) := by
        simp [abstract, ready, Boot.leaving]
      simpa [Handover.State.runs, core] using runs

theorem Inv.abstract_stepMain (h : Inv P s) (run : s.stepMain P = some t) :
    t.abstract = s.abstract := by
  simp only [State.stepMain] at run
  cases here : s.main <;> simp only [here] at run
  case outside => cases run
  case waitFinished i =>
    split at run
    · cases run
      rfl
    next set =>
      cases run
      have sent : s.Sent P i := by
        have main := h.main
        rwa [here] at main
      have before : s.mainThread = .initLoop (i + 1) := by
        simp [State.mainThread, sent.resetting.1, sent.flag set]
      have after : ({ s with
          handover := s.handover.setThread 0 (.initLoop (i + 1)),
          main := .outside } : State φ α).mainThread = .initLoop (i + 1) := by
        simp [State.mainThread]
      unfold abstract
      rw [before, after]
      simp only [Handover.State.setThread, startCores, Function.update_idem]
  all_goals
    cases run
    rfl

theorem abstract_deliver (run : s.deliver c = some t) : t.abstract = s.abstract := by
  simp only [State.deliver] at run
  obtain ⟨⟨waiting, -⟩, moved⟩ := Option.ite_none_right_eq_some.mp run
  cases moved
  exact abstract_setBoot rfl rfl (by rw [waiting]; rfl) (by rw [waiting]; rfl)

/-- The core jumps to where the hand-over already has it. -/
theorem Inv.abstract_stepBoot (h : Inv P s) (distinct : P.Distinct)
    (run : s.stepBoot P c = some t) : t.abstract = s.abstract := by
  have fits := h.boot c
  simp only [State.stepBoot] at run
  cases here : s.boot c <;> rw [here] at fits <;> simp only [here] at run
  case waiting | setFinished | ready | restarted => cases run
  case entered =>
    cases run
    rw [if_neg (h.entered distinct here)]
    exact abstract_setBoot rfl rfl (by rw [here]; rfl) (by rw [here]; rfl)
  case enableInterrupts =>
    cases run
    have own : (s.record (s.regs c).gs).coreId = c := by
      rw [show (s.regs c).gs = P.address c from congrArg Registers.gs fits]
      exact h.ids c
    have done : ∀ i, (Function.update s.boot c .ready i).finished = (s.boot i).finished := by
      intro i
      by_cases same : i = c
      · subst same
        simp [here, Boot.finished, Boot.leaving]
      · rw [Function.update_of_ne same]
    rw [own]
    have main : ({ s.setBoot c .ready with
        handover := s.handover.setCore c .start } : State φ α).mainThread = s.mainThread := by
      simp only [State.mainThread, Handover.State.setCore, setBoot_boot, done]
    unfold abstract
    rw [main]
    refine congrArg (fun h : Handover.State φ α => h.setThread 0 s.mainThread) ?_
    refine congrArg (fun core => ({ s.handover with core } : Handover.State φ α))
      (funext fun d => ?_)
    by_cases same : d = c
    · subst same
      simp [here, Boot.leaving]
    · simp [Function.update_of_ne same]
  all_goals
    cases run
    exact abstract_setBoot rfl rfl (by rw [here]; rfl) (by rw [here]; rfl)

/-- The store to the flag is the step of the main thread that starts the core. -/
theorem Inv.abstract_finish (h : Inv P s) (run : s.finish c = some t) :
    s.abstract.step P.toPlatform (.thread 0) = some t.abstract := by
  simp only [State.finish] at run
  obtain ⟨here, moved⟩ := Option.ite_none_right_eq_some.mp run
  cases moved
  have sent := h.sent (c := c) (.inr (by rw [here]; rfl))
  have at_reset := sent.resetting.1
  have unfinished : ∀ i, s.handover.thread 0 = .initReset i → (s.boot i).finished = false := by
    intro i same
    obtain rfl : c = i := by
      rw [at_reset] at same
      simpa using same
    rw [here]
    rfl
  have main : ({ s.setBoot c .acknowledge with words.finished := 1 } : State φ α).mainThread =
      .initLoop (c + 1) := by
    simp [State.mainThread, at_reset, Boot.finished, Boot.leaving]
  rw [abstract_eq unfinished]
  simp only [Handover.State.step, Handover.State.stepThread, startCores_thread, at_reset,
    Option.some.injEq]
  unfold abstract
  rw [main]
  refine congrArg (fun h : Handover.State φ α => h.setThread 0 (.initLoop (c + 1))) ?_
  refine congrArg (fun core => ({ s.handover with core } : Handover.State φ α)) (funext fun d => ?_)
  by_cases same : d = c
  · subst same
    simp [Boot.leaving]
  · simp [Function.update_of_ne same]

/-- A step of the hand-over is one. -/
theorem Inv.abstract_stepHandover (h : Inv P s) {e : Handover.Event φ α}
    (run : s.stepHandover P e = some t) : s.abstract.step P.toPlatform e = some t.abstract := by
  obtain ⟨rfl, outside, h', step, rfl⟩ | ⟨ne, h', step, rfl⟩ := stepHandover_cases run
  · have fits := h.main
    simp only [outside, MainFits] at fits
    have other : ∀ i, s.handover.thread 0 ≠ .initReset i := fun i here => by
      rw [here] at fits
      exact fits
    have unfinished := (h.mainThread outside step).main
    rw [abstract_eq fun i here => absurd here (other i), abstract_eq]
    · simp only [Handover.State.step, stepThread_startCores other, step, Option.map_some]
    · intro i there
      simp only at there
      rw [there] at unfinished
      rw [unfinished.2 i (Nat.le_refl i)]
      rfl
  · have moved := elsewhere_of_step h.placed ne step
    cases e with
    | thread w =>
        have other := ne w rfl
        have reset : ∀ i, s.handover.thread w ≠ .initReset i := fun i here => by
          have mine := h.placed w
          rw [here] at mine
          exact other mine.1
        have same : h'.thread 0 = s.handover.thread 0 := by
          obtain ⟨p, thread, -⟩ := stepThread_thread step (h.placed w)
          rw [thread, Function.update_of_ne (Ne.symm other)]
        simp only [Handover.State.step] at step
        simp only [Handover.State.step, abstract, stepThread_setThread other,
          stepThread_startCores reset, step, Option.map_some, State.mainThread, same]
    | core d =>
        simp only [Handover.State.step] at step
        -- A core on its way out of `ap_reset_handler` is not in the hand-over yet.
        have inside : (s.boot d).leaving = false := by
          obtain ready | off := h.core d
          · rw [ready]
            rfl
          · simp [Handover.State.stepCore, off] at step
        simp only [Handover.State.step, abstract]
        rw [stepCore_setThread (by rw [mainThread_active]; rfl), stepCore_startCores inside, step]
        simp only [Option.map_some, State.mainThread, stepCore_thread step]
    | add w f a =>
        simp only [Handover.State.step] at step
        split at step
        next idle =>
          obtain ⟨⟨lt, runs⟩, ⟨⟩⟩ := Option.ite_none_right_eq_some.mp step
          have inside : s.abstract.thread w = .idle := by
            by_cases main : w = 0
            · subst main
              simp [abstract, State.mainThread, idle]
            · simp [abstract, Function.update_of_ne main, idle]
          simp only [Handover.State.step, inside, lt, h.abstract_runs runs, and_self, if_true,
            Option.some.injEq]
          exact abstract_setThread idle (by simp)
        next => cases step
    | exit =>
        simp only [Handover.State.step] at step
        split at step
        next idle =>
          cases step
          have main : s.abstract.thread 0 = .idle := by simp [abstract, State.mainThread, idle]
          simp only [Handover.State.step, main, Option.some.injEq]
          exact abstract_setThread idle (by simp)
        next => cases step

end State

/-! ### Whole runs -/

/-- The step of the hand-over that is taken. -/
def Event.visible {φ α : Type} : Event φ α → Option (Handover.Event φ α)
  | .handover e => some e
  | .finish _ => some (.thread 0)
  | _ => none

namespace State

variable {φ α : Type} {P : Platform φ α} {s t : State φ α} {c i : Nat}

theorem abstract_initial (regs : Nat → Registers) :
    (initial P regs).abstract = .initial P.toPlatform := by
  rw [abstract_eq fun i here => rfl]
  rfl

theorem abstract_oneCall {e : Handover.Event φ α} (ok : s.handover.OneCall P.toPlatform e) :
    s.abstract.OneCall P.toPlatform e := by
  cases e with
  | add w f a =>
      intro u lt
      by_cases main : u = 0
      · subst main
        simpa [abstract, mainThread_active] using ok 0 lt
      · simpa [abstract, Function.update_of_ne main] using ok u lt
  | _ => trivial

/-- Every run is a run of the hand-over. -/
theorem simulates (distinct : P.Distinct) {regs : Nat → Registers} {events : List (Event φ α)}
    (run : Run (Within (OneCall P) (step P)) (initial P regs) events s) :
    Inv P s ∧ Run (Within (Handover.State.OneCall P.toPlatform) (Handover.State.step P.toPlatform))
      (.initial P.toPlatform) (events.filterMap Event.visible) s.abstract := by
  obtain ⟨x, matched, inv, rfl⟩ : ∃ x,
      Run (Within (Handover.State.OneCall P.toPlatform) (Handover.State.step P.toPlatform))
        (.initial P.toPlatform) (events.filterMap Event.visible) x ∧ Inv P s ∧ s.abstract = x :=
    run.simulation (fun s x => Inv P s ∧ s.abstract = x) Event.visible
    (fun s a t x related next none => by
      obtain ⟨h, rfl⟩ := related
      refine ⟨h.step distinct next.2, ?_⟩
      cases a with
      | handover e => cases none
      | finish c => cases none
      | main => exact h.abstract_stepMain next.2
      | deliver c => exact abstract_deliver next.2
      | boot c => exact h.abstract_stepBoot distinct next.2)
    (fun s a t x b related next shown => by
      obtain ⟨h, rfl⟩ := related
      refine ⟨t.abstract, ?_, h.step distinct next.2, rfl⟩
      cases a with
      | handover e =>
          cases shown
          exact ⟨abstract_oneCall next.1, h.abstract_stepHandover next.2⟩
      | finish c =>
          cases shown
          exact ⟨trivial, h.abstract_finish next.2⟩
      | main => cases shown
      | deliver c => cases shown
      | boot c => cases shown)
    ⟨inv_initial regs, abstract_initial regs⟩
  exact ⟨inv, matched⟩

/-! ### The main thread does not wait for ever -/

end State

/-- The steps that a core has left before it sets the flag. -/
def Boot.rank : Boot → Nat
  | .waiting => 11
  | .entered => 10
  | .loadCr0 => 9
  | .loadCr4 => 8
  | .loadGs => 7
  | .loadTls => 6
  | .loadStack => 5
  | .installGdt => 4
  | .installIdt => 3
  | .loadCr3 => 2
  | .setFinished => 1
  | _ => 0

/-- A step of the core itself. -/
def Event.ofCore {φ α : Type} (c : Nat) : Event φ α → Bool
  | .deliver d => d = c
  | .boot d => d = c
  | .finish d => d = c
  | _ => false

namespace State

variable {φ α : Type} {P : Platform φ α} {s t : State φ α} {c i : Nat}

/-- A core that the main thread waits for can take its next step. -/
theorem Inv.next (h : Inv P s) (distinct : P.Distinct) (busy : s.Busy i) :
    ∃ a t, Event.ofCore i a = true ∧ s.step P a = some t ∧ t.main = s.main ∧
      (t.words.finished ≠ 0 ∨ (t.boot i).rank < (s.boot i).rank) := by
  by_cases pending : s.pending i = true
  · have waiting := h.pending i pending
    refine ⟨.deliver i, _, by simp [Event.ofCore],
      if_pos ⟨waiting, pending⟩, rfl, .inr ?_⟩
    simp [waiting, Boot.rank]
  · have loading := busy.resolve_left pending
    cases here : s.boot i <;> rw [here] at loading
    case setFinished =>
      exact ⟨.finish i, _, by simp [Event.ofCore], if_pos here, rfl, .inl (by simp)⟩
    case waiting | acknowledge | enableInterrupts | ready | restarted => cases loading
    case entered =>
      refine ⟨.boot i, s.setBoot i .loadCr0, by simp [Event.ofCore], ?_, rfl, .inr ?_⟩
      · simp [State.step, State.stepBoot, here, h.entered distinct here]
      · simp [Boot.rank]
    all_goals
      refine ⟨.boot i, ?_⟩
      simp only [State.step, State.stepBoot, here, Option.some.injEq]
      simp [Event.ofCore, Boot.rank]

/-- The core sets the flag by steps of its own. -/
theorem Inv.arrives (distinct : P.Distinct) (h : Inv P s)
    (waits : s.main = .waitSent i ∨ s.main = .waitFinished i) :
    ∃ events t, (∀ a ∈ events, Event.ofCore i a = true) ∧
      Run (Within (OneCall P) (State.step P)) s events t ∧ Inv P t ∧ t.main = s.main ∧
      t.words.finished ≠ 0 := by
  induction left : (s.boot i).rank using Nat.strong_induction_on generalizing s with
  | _ n ih =>
      by_cases clear : s.words.finished = 0
      · have sent : s.Sent P i := by
          have main := h.main
          obtain here | here := waits <;> rw [here] at main <;> exact main
        obtain ⟨a, u, mine, step, same, progress⟩ := h.next distinct (sent.alive clear)
        have allowed : Within (OneCall P) (State.step P) s a u := by
          refine ⟨?_, step⟩
          cases a <;> trivial
        have inv := h.step distinct step
        obtain set | less := progress
        · exact ⟨[a], u, by simpa using mine, Run.single.mpr allowed, inv, same, set⟩
        · obtain ⟨events, t, own, run, after, main, set⟩ :=
            ih _ (left ▸ less) inv (by rwa [same]) rfl
          exact ⟨a :: events, t, by simpa [mine] using own, .cons allowed run, after,
            main.trans same, set⟩
      · exact ⟨[], s, by simp, .nil s, h, rfl, clear⟩

end State

/-- In every run, whatever the interleaving, what the hand-over sees is a run of the hand-over. A
core that has come to `ap_reset` has the control registers and the table of interrupts of the first
core and its own `PerCoreData`, thread-local storage, stack and task segment; none is started as
the first core. The first function that a core starts is the initializer with its own number. -/
theorem cores_are_started_with_their_own_state {φ α : Type} (P : Platform φ α)
    (distinct : P.Distinct) (regs : Nat → Registers) (events : List (Event φ α)) (s : State φ α)
    (run : Run (Within (State.OneCall P) (State.step P)) (State.initial P regs) events s) :
    Run (Within (Handover.State.OneCall P.toPlatform) (Handover.State.step P.toPlatform))
        (.initial P.toPlatform) (events.filterMap Event.visible) s.abstract ∧
      (∀ c, s.handover.core c ≠ .off → s.regs c = P.own c) ∧
      (∀ c, s.boot c ≠ .restarted) ∧
      ∀ c, ∀ j ∈ (s.handover.started c).head?, j = (P.coreInitializer, P.pointer c) := by
  obtain ⟨inv, seen⟩ := State.simulates distinct run
  refine ⟨seen, fun c on => ?_, fun c restarted => ?_, fun c => ?_⟩
  · have fits := inv.boot c
    rwa [(inv.core c).resolve_right on] at fits
  · have fits := inv.boot c
    rwa [restarted] at fits
  · exact ((Handover.State.inv_run seen).handedOver c).first

/-- Two cores with the ids 0 and 4. -/
def samplePlatform : Platform Nat Nat where
  toPlatform := Handover.samplePlatform
  cr0 := 0x80050033
  cr3 := 0x7000
  cr4 := 0x10620
  idt := 0x5000
  perCoreData := 0x9000
  apicId := fun c => 4 * c
  stackPtr := fun c => 0x100000 * (c + 1)
  tlsPtr := fun c => 0x100000 * (c + 1) + 64

theorem samplePlatform_distinct : samplePlatform.Distinct where
  inj c d _ _ same := by
    simp only [samplePlatform] at same
    omega
  pos c pos _ := by
    simp only [samplePlatform]
    omega

/-- The main thread is interrupted between the stores; the core goes on while it waits. -/
def sampleBringup : List (Event Nat Nat) :=
  [[.handover (.thread 0)], List.replicate 2 .main, List.replicate 2 (.handover (.thread 0)),
    List.replicate 7 .main, [.deliver 1], List.replicate 5 (.boot 1), List.replicate 2 .main,
    List.replicate 4 (.boot 1), [.finish 1], [.main], List.replicate 2 (.boot 1),
    List.replicate 7 (.handover (.core 1))].flatten

theorem cores_are_started_with_their_own_state_sample : ∃ s : State Nat Nat,
    Run (Within (State.OneCall samplePlatform) (State.step samplePlatform))
      (State.initial samplePlatform fun _ => ⟨0, 0, 0, 0, 0, 0, 0, 0⟩) sampleBringup s ∧
      s.handover.started 1 = [(0, 1)] ∧ s.regs 1 = samplePlatform.own 1 := by
  have done : (simulate (State.OneCall samplePlatform) (State.step samplePlatform) sampleBringup
      (State.initial samplePlatform fun _ => ⟨0, 0, 0, 0, 0, 0, 0, 0⟩)).map
        (fun s => (s.handover.started 1, s.handover.core 1)) =
      some ([(0, 1)], .running 0 1) := by decide +kernel
  obtain ⟨s, hs, seen⟩ := Option.map_eq_some_iff.mp done
  obtain ⟨started, core⟩ := Prod.mk.inj seen
  have run := simulate_run hs
  have own := (cores_are_started_with_their_own_state samplePlatform samplePlatform_distinct _ _ s
    run).2.1 1
  exact ⟨s, run, started, own (by simp [core])⟩

/-- Wherever the core is that the main thread has interrupted, it can set the flag by steps of its
own, and the main thread then goes on to the next core. -/
theorem init_cpu_can_return {φ α : Type} (P : Platform φ α) (distinct : P.Distinct)
    (regs : Nat → Registers) (events : List (Event φ α)) (s : State φ α) (i : Nat)
    (run : Run (Within (State.OneCall P) (State.step P)) (State.initial P regs) events s)
    (waits : s.main = .waitSent i ∨ s.main = .waitFinished i) :
    ∃ steps after t u, (∀ a ∈ steps, Event.ofCore i a = true) ∧
      (after = [.main] ∨ after = [.main, .main]) ∧
      Run (Within (State.OneCall P) (State.step P)) s steps t ∧
      Run (Within (State.OneCall P) (State.step P)) t after u ∧
      u.main = .outside ∧ u.handover.thread 0 = .initLoop (i + 1) := by
  obtain ⟨inv, -⟩ := State.simulates distinct run
  obtain ⟨steps, t, own, arrives, after, main, set⟩ := inv.arrives distinct waits
  have leave : ∀ v : State φ α, v.main = .waitFinished i → v.words.finished ≠ 0 →
      ∃ u, Within (State.OneCall P) (State.step P) v .main u ∧ u.main = .outside ∧
        u.handover.thread 0 = .initLoop (i + 1) := fun v here set =>
    ⟨_, ⟨trivial, by simp only [State.step, State.stepMain, here, if_neg set]; rfl⟩, rfl,
      by simp⟩
  obtain here | here := waits
  · rw [here] at main
    obtain ⟨u, next, outside, loop⟩ := leave (t.setMain (.waitFinished i)) rfl set
    have first : Within (State.OneCall P) (State.step P) t .main (t.setMain (.waitFinished i)) :=
      ⟨trivial, by simp only [State.step, State.stepMain, main]⟩
    exact ⟨steps, _, t, u, own, .inr rfl, arrives, .cons first (Run.single.mpr next), outside, loop⟩
  · rw [here] at main
    obtain ⟨u, next, outside, loop⟩ := leave t main set
    exact ⟨steps, _, t, u, own, .inl rfl, arrives, Run.single.mpr next, outside, loop⟩

theorem init_cpu_can_return_sample : ∃ s u : State Nat Nat, ∃ events,
    Run (Within (State.OneCall samplePlatform) (State.step samplePlatform))
      (State.initial samplePlatform fun _ => ⟨0, 0, 0, 0, 0, 0, 0, 0⟩) (sampleBringup.take 12) s ∧
      s.main = .waitSent 1 ∧
      Run (Within (State.OneCall samplePlatform) (State.step samplePlatform)) s events u ∧
      u.handover.thread 0 = .initLoop 2 := by
  have done : (simulate (State.OneCall samplePlatform) (State.step samplePlatform)
      (sampleBringup.take 12) (State.initial samplePlatform fun _ => ⟨0, 0, 0, 0, 0, 0, 0, 0⟩)).map
        (·.main) = some (.waitSent 1) := by decide +kernel
  obtain ⟨s, hs, main⟩ := Option.map_eq_some_iff.mp done
  have run := simulate_run hs
  obtain ⟨steps, after, t, u, -, -, arrives, leaves, -, loop⟩ :=
    init_cpu_can_return samplePlatform samplePlatform_distinct _ _ s 1 run (.inl main)
  exact ⟨s, u, _, run, main, arrives.append leaves, loop⟩

end Monza.Bringup
