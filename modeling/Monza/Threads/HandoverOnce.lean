import Monza.Threads.Handover

/-!
# Functions are handed over exactly once

Each core is a worker with room for one job: what is stored in its context, then in its registers,
and then called. `add_thread` posts to a core that has set `done`, and while one call is made at a
time that core is free: the flag is cleared before the code pointer, and the call waits for the
pointer. So calls that have returned are those posted, up to the one that is waiting; what is not
yet started of them is about to be called; and a core is only seen done when it has finished them.
-/

namespace Monza.Handover

open Transition

/-- A job that is only stored. -/
def Context.stage {φ α : Type} (x : Context φ α) : Worker.Stage (φ × α) :=
  match x.codePtr with
  | none => .free
  | some f => .posted (f, x.arg)

namespace Core

variable {φ α : Type}

/-- The core as a worker. The job is in the context until it is in the registers. -/
def stage (p : Core φ α) (x : Context φ α) : Worker.Stage (φ × α) :=
  match p with
  | off => x.stage
  | start => x.stage
  | loop => x.stage
  | loadArg f => .posted (f, x.arg)
  | increment f a => .posted (f, a)
  | clearDone f a => .posted (f, a)
  | clearCode f a => .posted (f, a)
  | call f a => .accepted (f, a)
  | running f a => .running (f, a)
  | setDone => x.stage
  | decrement => x.stage

/-- What the context holds at each point of the loop. -/
def Fits : Core φ α → Context φ α → Prop
  | off, x => x.done = 0
  | start, x => x.done = 0
  | loop, _ => True
  | loadArg f, x => x.codePtr = some f
  | increment f _, x => x.codePtr = some f
  | clearDone f _, x => x.codePtr = some f
  | clearCode f _, x => x.codePtr = some f ∧ x.done = 0
  | call _ _, x => x.codePtr = none ∧ x.done = 0
  | running _ _, x => x.codePtr = none ∧ x.done = 0
  | setDone, x => x.codePtr = none ∧ x.done = 0
  | decrement, _ => True

variable {p : Core φ α} {x : Context φ α}

/-- The core does nothing as long as nothing is stored. -/
def Waits (p : Core φ α) : Prop := p = .off ∨ p = .loop ∨ p = .decrement

theorem Fits.waits_of_ready (fits : p.Fits x) (done : x.done = 1) (none : x.codePtr = none) :
    p.Waits := by
  cases p <;> simp_all [Fits, Waits]

theorem Waits.stage (waits : p.Waits) : p.stage x = x.stage := by
  obtain rfl | rfl | rfl := waits <;> rfl

theorem Fits.congr_arg (fits : p.Fits x) (a : α) : p.Fits { x with arg := a } := by
  cases p <;> exact fits

/-- A core that waits may be given something. -/
theorem Waits.fits_stored (waits : p.Waits) (fits : p.Fits x) (f : φ) :
    p.Fits { x with codePtr := some f } := by
  obtain rfl | rfl | rfl := waits
  · exact fits
  · trivial
  · trivial

/-- A job that is posted is still in the context. -/
theorem Fits.of_posted (fits : p.Fits x) {j : φ × α} (posted : p.stage x = .posted j) :
    x.codePtr ≠ none := by
  intro none
  cases p <;> simp_all [stage, Context.stage, Fits]

theorem eq_call_of_accepted {j : φ × α} (accepted : p.stage x = .accepted j) :
    p = .call j.1 j.2 := by
  obtain ⟨f, b⟩ := j
  cases code : x.codePtr <;> cases p <;> simp_all [stage, Context.stage]

theorem Fits.stage_of_done (fits : p.Fits x) (done : x.done = 1) :
    p.stage x = .free ∨ ∃ j, p.stage x = .posted j := by
  cases code : x.codePtr <;> cases p <;> simp_all [stage, Context.stage, Fits]

end Core

namespace Thread

variable {φ α : Type}

/-- The job that the thread has stored for a core and waits to be taken. -/
def awaits (c : Nat) : Thread φ α → Option (φ × α)
  | addWait i f a => if i = c then some (f, a) else none
  | addPing i f a => if i = c then some (f, a) else none
  | _ => none

/-- Only the main thread initializes the cores and exits. -/
def Placed (P : Platform φ α) (w : Nat) : Thread φ α → Prop
  | initLoop i => w = 0 ∧ 0 < i
  | initArg i => w = 0 ∧ 0 < i ∧ i < P.cores
  | initCode i => w = 0 ∧ 0 < i ∧ i < P.cores
  | initReset i => w = 0 ∧ 0 < i ∧ i < P.cores
  | waitLoop _ => w = 0
  | waitDone _ => w = 0
  | exitDecrement => w = 0
  | exitWait => w = 0
  | exited => w = 0
  | _ => True

theorem awaits_eq_none {p : Thread φ α} (inactive : p.active = false) (c : Nat) :
    p.awaits c = none := by
  cases p
  case idle | exitDecrement | exitWait | exited => rfl
  all_goals cases inactive

end Thread

namespace State

variable {φ α : Type} {P : Platform φ α}

def worker (s : State φ α) (c : Nat) : Worker.State (φ × α) :=
  ⟨s.posted c, s.started c, s.finished c, (s.core c).stage (s.context c)⟩

/-- The main thread has not come to the core yet. -/
def Untouched (s : State φ α) (c : Nat) : Prop :=
  s.core c = .off ∧ (s.context c).codePtr = none ∧ s.posted c = []

def Ready (s : State φ α) (c : Nat) : Prop :=
  (s.context c).done = 1 ∧ (s.context c).codePtr = none

/-- What a thread knows of the cores at each point. -/
def ThreadFits (P : Platform φ α) (s : State φ α) : Thread φ α → Prop
  | .initLoop i => ∀ c, i ≤ c → s.Untouched c
  | .initArg i => ∀ c, i ≤ c → s.Untouched c
  | .initCode i => (∀ c, i ≤ c → s.Untouched c) ∧ (s.context i).arg = P.pointer i
  | .initReset i => (∀ c, i < c → s.Untouched c) ∧ s.core i = .off
  | .addLoop i _ _ => 0 < i
  | .addLoad i _ _ => 0 < i ∧ i < P.cores
  | .addArg i _ _ => (0 < i ∧ i < P.cores) ∧ s.Ready i
  | .addCode i _ a => (0 < i ∧ i < P.cores) ∧ s.Ready i ∧ (s.context i).arg = a
  | .addWait i _ _ => 0 < i ∧ i < P.cores
  | .addPing i _ _ => 0 < i ∧ i < P.cores
  | _ => True

/-- What has been posted to a core: first its initializer, then what the calls that have returned
its id asked for, then what a call is waiting for. -/
def Account (P : Platform φ α) (s : State φ α) (c : Nat) (current : Option (φ × α)) : Prop :=
  s.posted c = [] ∧ s.results c = [] ∧ current = none ∨
    s.posted c = (P.coreInitializer, P.pointer c) :: (s.results c ++ current.toList)

/-- What holds at a core by itself. -/
structure Sound (s : State φ α) (c : Nat) : Prop where
  fits : (s.core c).Fits (s.context c)
  flagged : (s.context c).done ≠ 0 ∨ s.core c = .setDone → s.finished c ≠ []
  worker : Worker.Inv (s.worker c)

structure Inv (P : Platform φ α) (s : State φ α) : Prop where
  single : ∀ u v, (s.thread u).active = true → (s.thread v).active = true → u = v
  bounded : ∀ u, (s.thread u).active = true → u < P.cores
  sound : ∀ c, s.Sound c
  thread : ∀ w, s.ThreadFits P (s.thread w)
  awaited : ∀ c, (s.context c).codePtr ≠ none →
    s.started c = [] ∨ ∃ w j, (s.thread w).awaits c = some j
  account : ∀ c, ∃ current,
    (∀ j, current = some j ↔ ∃ w, (s.thread w).awaits c = some j) ∧ s.Account P c current
  ids : ∀ call ∈ s.calls, call.id = 0 ∨ ∃ c, 0 < c ∧ c < P.cores ∧ call.id = coreToThread c

theorem threadFits_of_inactive {s : State φ α} {p : Thread φ α} (inactive : p.active = false) :
    s.ThreadFits P p := by
  cases p
  case idle | exitDecrement | exitWait | exited => trivial
  all_goals cases inactive

/-- Nothing has changed at the core. -/
structure SameAt (s s' : State φ α) (c : Nat) : Prop where
  core : s'.core c = s.core c
  context : s'.context c = s.context c
  posted : s'.posted c = s.posted c
  started : s'.started c = s.started c
  finished : s'.finished c = s.finished c

theorem SameAt.sound {s s' : State φ α} {c : Nat} (same : SameAt s s' c) (h : s.Sound c) :
    s'.Sound c where
  fits := by
    rw [same.core, same.context]
    exact h.fits
  flagged := by
    rw [same.core, same.context, same.finished]
    exact h.flagged
  worker := by
    rw [worker, same.core, same.context, same.posted, same.started, same.finished]
    exact h.worker

theorem Inv.sound_of_same {s s' : State φ α} (h : Inv P s) (same : ∀ c, SameAt s s' c) (c : Nat) :
    s'.Sound c :=
  (same c).sound (h.sound c)

section Sound

variable {s : State φ α} {i : Nat}

theorem Sound.setThread (h : s.Sound i) (w : Nat) (p : Thread φ α) : (s.setThread w p).Sound i :=
  ⟨h.fits, h.flagged, h.worker⟩

/-- The argument is stored for a core that waits. -/
theorem Sound.storeArg (h : s.Sound i) (waits : (s.core i).Waits)
    (none : (s.context i).codePtr = none) (a : α) :
    (s.setContext i { s.context i with arg := a }).Sound i := by
  refine ⟨?_, ?_, ?_⟩
  · simpa using h.fits.congr_arg a
  · simpa using h.flagged
  · simpa [State.worker, waits.stage, Context.stage, none] using h.worker

/-- The code pointer is stored for a core that waits. -/
theorem Sound.storeCode (h : s.Sound i) (waits : (s.core i).Waits)
    (none : (s.context i).codePtr = none) (f : φ) : (s.storeCode i f).Sound i := by
  refine ⟨?_, ?_, ?_⟩
  · simpa using waits.fits_stored h.fits f
  · simpa using h.flagged
  · refine h.worker.step ?_
    simpa [State.worker, waits.stage, Context.stage, none] using Worker.Step.post _

/-- A core is started that was off. -/
theorem Sound.resetCore (h : s.Sound i) (off : s.core i = .off) : (s.setCore i .start).Sound i := by
  refine ⟨?_, ?_, ?_⟩
  · simpa [off, Core.Fits] using h.fits
  · simpa [off] using h.flagged
  · simpa [State.worker, off, Core.stage] using h.worker

/-- A core seen done has been given something before. -/
theorem Sound.posted_of_ready (h : s.Sound i) (ready : s.Ready i) : s.posted i ≠ [] := by
  intro none
  have finished := h.flagged (.inl (by rw [ready.1]; exact Nat.one_ne_zero))
  exact finished (List.prefix_nil.mp (none ▸ h.worker.finished_isPrefix))

theorem Sound.done_of_off (h : s.Sound i) (off : s.core i = .off) : (s.context i).done = 0 := by
  have fits := h.fits
  rw [off] at fits
  exact fits

end Sound

/-! ## Steps of the cores -/

/-- What a step of a core does to the rest of the system. -/
structure CoreMoved (s : State φ α) (c : Nat) (s' : State φ α) : Prop where
  on : s.core c ≠ .off
  thread : s'.thread = s.thread
  posted : s'.posted = s.posted
  calls : s'.calls = s.calls
  elsewhere : ∀ d, d ≠ c → SameAt s s' d
  arg : (s'.context c).arg = (s.context c).arg
  fits : (s'.core c).Fits (s'.context c)
  code : (s'.context c).codePtr ≠ none →
    (s.context c).codePtr ≠ none ∧ s'.started c = s.started c
  ready : s.Ready c → s'.Ready c
  flagged : (s'.context c).done ≠ 0 ∨ s'.core c = .setDone → s'.finished c ≠ []
  worker : s'.worker c = s.worker c ∨ Worker.Step (s.worker c) (s'.worker c)

/-- A step that changes only the registers of the core and the number of executing cores. -/
theorem moved_setCore {s : State φ α} {c : Nat} {p : Core φ α} (executing : Nat) (h : s.Sound c)
    (on : s.core c ≠ .off) (other : p ≠ .setDone) (fits : p.Fits (s.context c))
    (stage : p.stage (s.context c) = (s.core c).stage (s.context c)) :
    CoreMoved s c ({ s with executing := executing }.setCore c p) := by
  refine ⟨on, rfl, rfl, rfl, fun d ne => by constructor <;> simp [ne], rfl, ?_, ?_, id, ?_, ?_⟩
  · simpa using fits
  · intro stored
    exact ⟨stored, rfl⟩
  · simp only [setCore_core, Function.update_self, other, or_false]
    exact fun done => h.flagged (.inl done)
  · exact .inl (by simp [worker, stage])

theorem stepCore_moved {s s' : State φ α} {c : Nat} (h : s.Sound c)
    (run : s.stepCore c = some s') : CoreMoved s c s' := by
  have fits := h.fits
  simp only [stepCore] at run
  cases here : s.core c <;> simp only [here, Core.Fits] at run fits
  case off => cases run
  case start =>
    cases run
    exact moved_setCore _ h (by simp [here]) (by simp) trivial (by rw [here]; rfl)
  case loop =>
    split at run
    next none =>
      cases run
      exact moved_setCore _ h (by simp [here]) (by simp) trivial (by rw [here])
    next f stored =>
      cases run
      exact moved_setCore _ h (by simp [here]) (by simp) stored
        (by simp [here, Core.stage, Context.stage, stored])
  case loadArg f =>
    cases run
    exact moved_setCore _ h (by simp [here]) (by simp) fits (by rw [here]; rfl)
  case increment f a =>
    cases run
    exact moved_setCore _ h (by simp [here]) (by simp) fits (by rw [here]; rfl)
  case decrement =>
    cases run
    exact moved_setCore _ h (by simp [here]) (by simp) trivial (by rw [here]; rfl)
  case clearDone f a =>
    cases run
    refine ⟨by simp [here], rfl, rfl, rfl, fun d ne => by constructor <;> simp [ne],
      by simp, ?_, ?_, ?_, ?_, ?_⟩
    · simpa [Core.Fits] using fits
    · simp
    · simp [Ready, fits]
    · simp
    · exact .inl (by simp [worker, here, Core.stage])
  case clearCode f a =>
    cases run
    refine ⟨by simp [here], rfl, rfl, rfl, fun d ne => by constructor <;> simp [ne],
      by simp, ?_, ?_, ?_, ?_, ?_⟩
    · simpa [Core.Fits] using fits.2
    · simp
    · simp [Ready, fits]
    · simp [fits.2]
    · refine .inr ?_
      simpa [worker, here, Core.stage] using Worker.Step.accept
  case call f a =>
    cases run
    refine ⟨by simp [here], rfl, rfl, rfl, fun d ne => by constructor <;> simp [ne],
      rfl, ?_, ?_, ?_, ?_, ?_⟩
    · simpa [Core.Fits] using fits
    · simp [fits.1]
    · simp [Ready]
    · simp [fits.2]
    · refine .inr ?_
      simpa [worker, here, Core.stage] using Worker.Step.start
  case running f a =>
    obtain ⟨-, ⟨⟩⟩ := Option.ite_none_left_eq_some.mp run
    refine ⟨by simp [here], rfl, rfl, rfl, fun d ne => by constructor <;> simp [ne],
      rfl, ?_, ?_, ?_, ?_, ?_⟩
    · simpa [Core.Fits] using fits
    · simp [fits.1]
    · simp [Ready]
    · simp
    · refine .inr ?_
      simpa [worker, here, Core.stage, Context.stage, fits.1] using Worker.Step.finish
  case setDone =>
    cases run
    refine ⟨by simp [here], rfl, rfl, rfl, fun d ne => by constructor <;> simp [ne],
      by simp, ?_, ?_, ?_, ?_, ?_⟩
    · simp [Core.Fits]
    · simp
    · simp [Ready, fits.1]
    · intro _
      exact h.flagged (.inr here)
    · exact .inl (by simp [worker, here, Core.stage, Context.stage])

theorem CoreMoved.sound {s s' : State φ α} {c : Nat} (m : CoreMoved s c s')
    (h : ∀ d, s.Sound d) (d : Nat) : s'.Sound d := by
  by_cases same : d = c
  · subst same
    refine ⟨m.fits, m.flagged, ?_⟩
    obtain eq | step := m.worker
    · rw [eq]
      exact (h d).worker
    · exact (h d).worker.step step
  · exact (m.elsewhere d same).sound (h d)

/-- A step of a core keeps what the threads know. -/
theorem CoreMoved.threadFits {s s' : State φ α} {c : Nat} {p : Thread φ α} (m : CoreMoved s c s')
    (fits : s.ThreadFits P p) : s'.ThreadFits P p := by
  have untouched : ∀ d, s.Untouched d → s'.Untouched d := by
    rintro d ⟨off, code, posted⟩
    have ne : d ≠ c := fun same => m.on (same ▸ off)
    have same := m.elsewhere d ne
    exact ⟨same.core ▸ off, same.context ▸ code, same.posted ▸ posted⟩
  have ready : ∀ d, s.Ready d → s'.Ready d := by
    intro d
    by_cases same : d = c
    · subst same
      exact m.ready
    · exact fun known => by simpa only [Ready, (m.elsewhere d same).context] using known
  have arg : ∀ d, (s'.context d).arg = (s.context d).arg := by
    intro d
    by_cases same : d = c
    · subst same
      exact m.arg
    · rw [(m.elsewhere d same).context]
  cases p
  case initLoop i | initArg i => exact fun d le => untouched d (fits d le)
  case initCode i => exact ⟨fun d le => untouched d (fits.1 d le), (arg i).trans fits.2⟩
  case initReset i =>
    refine ⟨fun d lt => untouched d (fits.1 d lt), ?_⟩
    have ne : i ≠ c := fun same => m.on (same ▸ fits.2)
    rw [(m.elsewhere i ne).core]
    exact fits.2
  case addArg i f a => exact ⟨fits.1, ready i fits.2⟩
  case addCode i f a => exact ⟨fits.1, ready i fits.2.1, (arg i).trans fits.2.2⟩
  all_goals exact fits

/-- Step lemma for the cores. -/
theorem Inv.stepCore {s s' : State φ α} {c : Nat} (h : Inv P s) (run : s.stepCore c = some s') :
    Inv P s' := by
  have m := stepCore_moved (h.sound c) run
  constructor
  case single => rw [m.thread]; exact h.single
  case bounded => rw [m.thread]; exact h.bounded
  case sound => exact m.sound h.sound
  case thread =>
    intro w
    rw [m.thread]
    exact m.threadFits (h.thread w)
  case awaited =>
    intro d stored
    rw [m.thread]
    by_cases same : d = c
    · subst same
      obtain ⟨before, started⟩ := m.code stored
      rw [started]
      exact h.awaited d before
    · rw [(m.elsewhere d same).started]
      exact h.awaited d ((m.elsewhere d same).context ▸ stored)
  case account =>
    intro d
    simpa only [Account, results, m.thread, m.posted, m.calls] using h.account d
  case ids => rw [m.calls]; exact h.ids

/-! ## Steps of the threads -/

section Threads

variable {s s' : State φ α} {w i : Nat} {p : Thread φ α}

theorem Inv.inactive (h : Inv P s) (active : (s.thread w).active = true) {u : Nat} (ne : u ≠ w) :
    (s.thread u).active = false := by
  cases other : (s.thread u).active with
  | false => rfl
  | true => exact absurd (h.single u w other active) ne

/-- While a thread is active, nothing is awaited but what it awaits. -/
theorem Inv.awaits_iff (h : Inv P s) (active : (s.thread w).active = true) (c : Nat) (j : φ × α) :
    (∃ u, (s.thread u).awaits c = some j) ↔ (s.thread w).awaits c = some j := by
  refine ⟨?_, fun mine => ⟨w, mine⟩⟩
  rintro ⟨u, awaits⟩
  by_cases same : u = w
  · exact same ▸ awaits
  · rw [Thread.awaits_eq_none (h.inactive active same)] at awaits
    cases awaits

theorem Inv.account_of_active (h : Inv P s) (active : (s.thread w).active = true) (c : Nat) :
    s.Account P c ((s.thread w).awaits c) := by
  obtain ⟨current, iff, account⟩ := h.account c
  have same : current = (s.thread w).awaits c := by
    apply Option.ext
    intro j
    exact (iff j).trans (h.awaits_iff active c j)
  exact same ▸ account

/-- What is left of the invariant for a step of the active thread. -/
theorem Inv.of_active (h : Inv P s) (active : (s.thread w).active = true)
    (thread : s'.thread = Function.update s.thread w p) (fits : s'.ThreadFits P p)
    (sound : ∀ c, s'.Sound c)
    (awaited : ∀ c, (s'.context c).codePtr ≠ none →
      s'.started c = [] ∨ ∃ j, p.awaits c = some j)
    (account : ∀ c, s'.Account P c (p.awaits c))
    (ids : ∀ call ∈ s'.calls, call.id = 0 ∨ ∃ c, 0 < c ∧ c < P.cores ∧ call.id = coreToThread c) :
    Inv P s' := by
  have self : s'.thread w = p := by rw [thread, Function.update_self]
  have others : ∀ u, u ≠ w → (s'.thread u).active = false := by
    intro u ne
    rw [thread, Function.update_of_ne ne]
    exact h.inactive active ne
  have only : ∀ u, (s'.thread u).active = true → u = w := by
    intro u now
    by_contra ne
    rw [others u ne] at now
    cases now
  refine ⟨?_, ?_, sound, ?_, ?_, ?_, ids⟩
  · intro u v hu hv
    rw [only u hu, only v hv]
  · intro u hu
    rw [only u hu]
    exact h.bounded w active
  · intro u
    by_cases same : u = w
    · rw [same, self]
      exact fits
    · exact threadFits_of_inactive (others u same)
  · intro c stored
    refine (awaited c stored).imp_right ?_
    rintro ⟨j, mine⟩
    exact ⟨w, j, self ▸ mine⟩
  · intro c
    refine ⟨p.awaits c, ?_, account c⟩
    intro j
    refine ⟨fun mine => ⟨w, self ▸ mine⟩, ?_⟩
    rintro ⟨u, theirs⟩
    by_cases same : u = w
    · rwa [same, self] at theirs
    · rw [Thread.awaits_eq_none (others u same)] at theirs
      cases theirs

theorem Inv.awaited_of_active (h : Inv P s) (active : (s.thread w).active = true) (c : Nat)
    (stored : (s.context c).codePtr ≠ none) :
    s.started c = [] ∨ ∃ j, (s.thread w).awaits c = some j := by
  refine (h.awaited c stored).imp_right ?_
  rintro ⟨u, j, theirs⟩
  exact ⟨j, (h.awaits_iff active c j).mp ⟨u, theirs⟩⟩

/-- A step that only changes where the thread is. -/
theorem Inv.moveThread (h : Inv P s) (active : (s.thread w).active = true)
    (fits : s.ThreadFits P p) (awaits : ∀ c, p.awaits c = (s.thread w).awaits c) :
    Inv P (s.setThread w p) := by
  refine h.of_active active rfl fits (h.sound_of_same fun _ => ⟨rfl, rfl, rfl, rfl, rfl⟩) ?_ ?_
    h.ids
  · intro c stored
    rw [awaits]
    exact h.awaited_of_active active c stored
  · intro c
    rw [awaits]
    exact h.account_of_active active c

/-- A step of the active thread that changes one core only. -/
theorem Inv.of_active_at (h : Inv P s) (active : (s.thread w).active = true)
    (thread : s'.thread = Function.update s.thread w p) (fits : s'.ThreadFits P p)
    (calls : s'.calls = s.calls) (elsewhere : ∀ c, c ≠ i → SameAt s s' c)
    (awaits : ∀ c, c ≠ i → p.awaits c = (s.thread w).awaits c) (sound : s'.Sound i)
    (awaited : (s'.context i).codePtr ≠ none → s'.started i = [] ∨ ∃ j, p.awaits i = some j)
    (account : s'.Account P i (p.awaits i)) : Inv P s' := by
  refine h.of_active active thread fits ?_ ?_ ?_ (calls ▸ h.ids)
  · intro c
    by_cases same : c = i
    · exact same ▸ sound
    · exact (elsewhere c same).sound (h.sound c)
  · intro c
    by_cases same : c = i
    · exact same ▸ awaited
    · rw [(elsewhere c same).context, (elsewhere c same).started, awaits c same]
      exact h.awaited_of_active active c
  · intro c
    by_cases same : c = i
    · exact same ▸ account
    · rw [Account, results, calls, (elsewhere c same).posted, awaits c same]
      exact h.account_of_active active c

/-- The argument is stored for a core that waits. -/
theorem Inv.storeArg (h : Inv P s) (active : (s.thread w).active = true) (a : α)
    (waits : (s.core i).Waits) (none : (s.context i).codePtr = none)
    (fits : (s.setContext i { s.context i with arg := a }).ThreadFits P p)
    (awaits : ∀ c, p.awaits c = (s.thread w).awaits c) :
    Inv P ((s.setContext i { s.context i with arg := a }).setThread w p) := by
  refine h.of_active_at (i := i) active rfl fits rfl (fun c ne => by constructor <;> simp [ne])
    (fun c _ => awaits c) (((h.sound i).storeArg waits none a).setThread w p) ?_ ?_
  · simp [none]
  · rw [awaits]
    exact h.account_of_active active i

/-- The code pointer is stored for a core that waits. -/
theorem Inv.storeCode (h : Inv P s) (active : (s.thread w).active = true) {f : φ}
    (waits : (s.core i).Waits) (none : (s.context i).codePtr = none)
    (fits : (s.storeCode i f).ThreadFits P p)
    (others : ∀ c, c ≠ i → p.awaits c = (s.thread w).awaits c)
    (awaited : s.started i = [] ∨ ∃ j, p.awaits i = some j)
    (account : (s.storeCode i f).Account P i (p.awaits i)) :
    Inv P ((s.storeCode i f).setThread w p) := by
  refine h.of_active_at (i := i) active rfl fits rfl (fun c ne => by constructor <;> simp [ne])
    others (((h.sound i).storeCode waits none f).setThread w p) (fun _ => awaited) account

/-- A core is started that was off. -/
theorem Inv.resetCore (h : Inv P s) (active : (s.thread w).active = true)
    (off : s.core i = .off) (fits : (s.setCore i .start).ThreadFits P p)
    (awaits : ∀ c, p.awaits c = (s.thread w).awaits c) :
    Inv P ((s.setCore i .start).setThread w p) := by
  refine h.of_active_at (i := i) active rfl fits rfl (fun c ne => by constructor <;> simp [ne])
    (fun c _ => awaits c) (((h.sound i).resetCore off).setThread w p) ?_ ?_
  · rw [awaits]
    exact h.awaited_of_active active i
  · rw [awaits]
    exact h.account_of_active active i

theorem results_returnId (s : State φ α) (w : Nat) (f : φ) (a : α) (id c : Nat) :
    (s.returnId w f a id).results c =
      s.results c ++ if id = coreToThread c then [(f, a)] else [] := by
  by_cases same : id = coreToThread c <;> simp [results, same]

/-- `add_thread` has found no core. -/
theorem Inv.returnZero (h : Inv P s) (active : (s.thread w).active = true) {f : φ} {a : α}
    (awaits : ∀ c, (s.thread w).awaits c = none) : Inv P (s.returnId w f a 0) := by
  refine h.of_active (p := .idle) active rfl trivial
    (h.sound_of_same fun _ => ⟨rfl, rfl, rfl, rfl, rfl⟩) ?_ ?_ ?_
  · intro c stored
    refine (h.awaited_of_active active c stored).imp_right ?_
    rintro ⟨j, mine⟩
    rw [awaits] at mine
    cases mine
  · intro c
    have account := h.account_of_active active c
    rw [awaits] at account
    simpa [Account, results_returnId, coreToThread, Thread.awaits] using account
  · intro call mem
    rw [returnId_calls, List.mem_append, List.mem_singleton] at mem
    obtain before | rfl := mem
    · exact h.ids call before
    · exact .inl rfl

/-- The job that `add_thread` has stored has been taken. -/
theorem Inv.returnCore (h : Inv P s) {f : φ} {a : α} (here : s.thread w = .addWait i f a)
    (taken : (s.context i).codePtr = none) (usable : 0 < i ∧ i < P.cores) :
    Inv P (s.returnId w f a (coreToThread i)) := by
  have active : (s.thread w).active = true := by rw [here]; rfl
  refine h.of_active (p := .idle) active rfl trivial
    (h.sound_of_same fun _ => ⟨rfl, rfl, rfl, rfl, rfl⟩) ?_ ?_ ?_
  · intro c stored
    refine (h.awaited_of_active active c stored).imp_right ?_
    rintro ⟨j, mine⟩
    rw [here] at mine
    by_cases same : i = c
    · exact absurd (same ▸ taken) stored
    · simp [Thread.awaits, same] at mine
  · intro c
    have account := h.account_of_active active c
    rw [here] at account
    by_cases same : i = c
    · subst same
      simpa [Account, results_returnId, Thread.awaits] using account
    · simpa [Account, results_returnId, Thread.awaits, coreToThread, same] using account
  · intro call mem
    rw [returnId_calls, List.mem_append, List.mem_singleton] at mem
    obtain before | rfl := mem
    · exact h.ids call before
    · exact .inr ⟨i, usable.1, usable.2, rfl⟩

/-- A thread outside the library moves, or enters it when no other is there. -/
theorem Inv.moveOutside (h : Inv P s) (outside : (s.thread w).active = false)
    (fits : s.ThreadFits P p) (awaits : ∀ c, p.awaits c = none)
    (enters : p.active = true → w < P.cores ∧ ∀ u, (s.thread u).active = false) :
    Inv P (s.setThread w p) := by
  have same : ∀ u c, ((s.setThread w p).thread u).awaits c = (s.thread u).awaits c := by
    intro u c
    by_cases self : u = w
    · subst self
      simp [awaits, Thread.awaits_eq_none outside]
    · simp [self]
  refine ⟨?_, ?_, h.sound_of_same fun _ => ⟨rfl, rfl, rfl, rfl, rfl⟩, ?_, ?_, ?_, h.ids⟩
  · intro u v hu hv
    by_cases huw : u = w
    · by_cases hvw : v = w
      · rw [huw, hvw]
      · subst huw
        simp only [setThread_thread, Function.update_self, Function.update_of_ne hvw] at hu hv
        rw [(enters hu).2 v] at hv
        cases hv
    · simp only [setThread_thread, Function.update_of_ne huw] at hu
      by_cases hvw : v = w
      · subst hvw
        simp only [setThread_thread, Function.update_self] at hv
        rw [(enters hv).2 u] at hu
        cases hu
      · simp only [setThread_thread, Function.update_of_ne hvw] at hv
        exact h.single u v hu hv
  · intro u hu
    by_cases huw : u = w
    · subst huw
      simp only [setThread_thread, Function.update_self] at hu
      exact (enters hu).1
    · simp only [setThread_thread, Function.update_of_ne huw] at hu
      exact h.bounded u hu
  · intro u
    by_cases self : u = w
    · subst self
      simp only [setThread_thread, Function.update_self]
      exact fits
    · simp only [setThread_thread, Function.update_of_ne self]
      exact h.thread u
  · intro c stored
    simp only [same]
    exact h.awaited c stored
  · intro c
    simp only [same]
    exact h.account c

theorem Inv.setExecuting (h : Inv P s) (executing : Nat) :
    Inv P { s with executing := executing } :=
  ⟨h.single, h.bounded, h.sound_of_same fun _ => ⟨rfl, rfl, rfl, rfl, rfl⟩, h.thread,
    h.awaited, h.account, h.ids⟩

/-- A core that is done can be given a job by the active thread, which awaits nothing. -/
theorem Inv.ready (h : Inv P s) (active : (s.thread w).active = true)
    (awaits : (s.thread w).awaits i = none) (done : (s.context i).done = 1) : s.Ready i := by
  refine ⟨done, ?_⟩
  by_contra stored
  obtain none | ⟨j, mine⟩ := h.awaited_of_active active i stored
  · have started := (h.sound i).worker.started
    have finished := (h.sound i).flagged (.inl (by rw [done]; exact Nat.one_ne_zero))
    simp only [State.worker, none] at started
    exact finished (List.append_eq_nil_iff.mp started.symm).1
  · rw [awaits] at mine
    cases mine

/-- `initialize_threads` stores the number of a core it has not come to yet. -/
theorem Inv.initArg (h : Inv P s) (here : s.thread w = .initArg i) :
    Inv P ((s.setContext i { s.context i with arg := P.pointer i }).setThread w (.initCode i)) := by
  have fits := h.thread w
  rw [here] at fits
  obtain ⟨off, none, -⟩ := fits i (Nat.le_refl i)
  refine h.storeArg (by rw [here]; rfl) _ (.inl off) none ⟨?_, by simp⟩
    (by rw [here]; exact fun _ => rfl)
  intro c le
  obtain ⟨off, none, posted⟩ := fits c le
  refine ⟨off, ?_, posted⟩
  by_cases same : c = i
  · subst same
    simpa using none
  · simpa [same] using none

/-- The first function stored for a core is the initializer. -/
theorem Inv.initCode (h : Inv P s) (here : s.thread w = .initCode i) :
    Inv P ((s.storeCode i P.coreInitializer).setThread w (.initReset i)) := by
  have active : (s.thread w).active = true := by rw [here]; rfl
  have fits := h.thread w
  rw [here] at fits
  obtain ⟨off, none, posted⟩ := fits.1 i (Nat.le_refl i)
  have started : s.started i = [] :=
    List.prefix_nil.mp (posted ▸ (h.sound i).worker.started_isPrefix)
  refine h.storeCode active (.inl off) none ⟨?_, off⟩ (by rw [here]; exact fun _ _ => rfl)
    (.inl started) (.inr ?_)
  · intro c lt
    have ne : c ≠ i := Nat.ne_of_gt lt
    simpa [Untouched, ne] using fits.1 c (Nat.le_of_lt lt)
  · have account := h.account_of_active active i
    have nothing : s.results i = [] := by simpa [Account, posted, here, Thread.awaits] using account
    have results : (s.storeCode i P.coreInitializer).results i = s.results i := rfl
    rw [results, nothing]
    simp [posted, fits.2, Thread.awaits]

theorem Inv.initReset (h : Inv P s) (here : s.thread w = .initReset i) :
    Inv P ((s.setCore i .start).setThread w (.initLoop (i + 1))) := by
  have fits := h.thread w
  rw [here] at fits
  refine h.resetCore (by rw [here]; rfl) fits.2 ?_ (by rw [here]; exact fun _ => rfl)
  intro c lt
  have ne : c ≠ i := Nat.ne_of_gt lt
  simpa [Untouched, ne] using fits.1 c lt

theorem Inv.addArg (h : Inv P s) {f : φ} {a : α} (here : s.thread w = .addArg i f a) :
    Inv P ((s.setContext i { s.context i with arg := a }).setThread w (.addCode i f a)) := by
  have fits := h.thread w
  rw [here] at fits
  obtain ⟨usable, ready⟩ := fits
  refine h.storeArg (by rw [here]; rfl) a ((h.sound i).fits.waits_of_ready ready.1 ready.2)
    ready.2 ?_ (by rw [here]; exact fun _ => rfl)
  exact ⟨usable, by simpa [Ready] using ready, by simp⟩

/-- `add_thread` stores the function for a core that is done. -/
theorem Inv.addCode (h : Inv P s) {f : φ} {a : α} (here : s.thread w = .addCode i f a) :
    Inv P ((s.storeCode i f).setThread w (.addWait i f a)) := by
  have active : (s.thread w).active = true := by rw [here]; rfl
  have fits := h.thread w
  rw [here] at fits
  obtain ⟨usable, ready, arg⟩ := fits
  refine h.storeCode active ((h.sound i).fits.waits_of_ready ready.1 ready.2) ready.2 usable ?_
    (.inr ⟨(f, a), by simp [Thread.awaits]⟩) (.inr ?_)
  · intro c ne
    rw [here]
    simp [Thread.awaits, ne.symm]
  · have account := h.account_of_active active i
    rw [here] at account
    have before := account.resolve_left (fun none => (h.sound i).posted_of_ready ready none.1)
    have results : (s.storeCode i f).results i = s.results i := rfl
    rw [results]
    simp [before, arg, Thread.awaits]

/-- Step lemma for the threads. -/
theorem Inv.stepThread (h : Inv P s) (run : s.stepThread P w = some s') : Inv P s' := by
  have fits := h.thread w
  simp only [State.stepThread] at run
  cases here : s.thread w <;> simp only [here, ThreadFits] at run fits
  case idle => cases run
  case exited => cases run
  case exitDecrement =>
    cases run
    exact (h.setExecuting _).moveOutside (by simp [here, Thread.active]) trivial
      (fun _ => rfl) nofun
  case exitWait =>
    cases run
    split
    · exact h.moveOutside (by simp [here, Thread.active]) trivial (fun _ => rfl) nofun
    · exact h.moveOutside (by simp [here, Thread.active]) trivial (fun _ => rfl) nofun
  case initLoop i =>
    cases run
    split
    · exact h.moveThread (by rw [here]; rfl) fits (by rw [here]; exact fun _ => rfl)
    · exact h.moveThread (by rw [here]; rfl) trivial (by rw [here]; exact fun _ => rfl)
  case initArg i =>
    cases run
    exact h.initArg here
  case initCode i =>
    cases run
    exact h.initCode here
  case initReset i =>
    cases run
    exact h.initReset here
  case waitLoop i =>
    cases run
    split
    · exact h.moveThread (by rw [here]; rfl) trivial (by rw [here]; exact fun _ => rfl)
    · exact h.moveThread (by rw [here]; rfl) trivial (by rw [here]; exact fun _ => rfl)
  case waitDone i =>
    cases run
    split
    · exact h.moveThread (by rw [here]; rfl) trivial (by rw [here]; exact fun _ => rfl)
    · exact h.moveThread (by rw [here]; rfl) trivial (by rw [here]; exact fun _ => rfl)
  case addLoop i f a =>
    split at run
    next lt =>
      cases run
      exact h.moveThread (by rw [here]; rfl) ⟨fits, lt⟩ (by rw [here]; exact fun _ => rfl)
    next =>
      cases run
      exact h.returnZero (by rw [here]; rfl) (by rw [here]; exact fun _ => rfl)
  case addLoad i f a =>
    cases run
    split
    next done =>
      have ready := h.ready (w := w) (by rw [here]; rfl) (by rw [here]; rfl) done
      exact h.moveThread (by rw [here]; rfl) ⟨fits, ready⟩ (by rw [here]; exact fun _ => rfl)
    next =>
      exact h.moveThread (by rw [here]; rfl) (Nat.succ_pos i) (by rw [here]; exact fun _ => rfl)
  case addArg i f a =>
    cases run
    exact h.addArg here
  case addCode i f a =>
    cases run
    exact h.addCode here
  case addWait i f a =>
    split at run
    next =>
      cases run
      exact h.moveThread (by rw [here]; rfl) fits (by rw [here]; exact fun _ => rfl)
    next taken =>
      cases run
      exact h.returnCore here taken fits
  case addPing i f a =>
    cases run
    exact h.moveThread (by rw [here]; rfl) fits (by rw [here]; exact fun _ => rfl)

end Threads

theorem inv_initial : Inv P (initial P) where
  single u v hu hv := by
    simp only [initial] at hu hv
    split at hu <;> split at hv <;> simp_all [Thread.active]
  bounded u hu := by
    simp only [initial] at hu
    split at hu
    next zero => exact zero ▸ P.cores_pos
    next => cases hu
  sound c := ⟨rfl, by simp [initial], rfl, rfl⟩
  thread w := by
    by_cases zero : w = 0
    · simp [initial, zero, ThreadFits, Untouched]
    · simp [initial, zero, ThreadFits]
  awaited c stored := absurd rfl stored
  account c := by
    refine ⟨none, ?_, .inl ⟨rfl, rfl, rfl⟩⟩
    intro j
    refine ⟨nofun, ?_⟩
    rintro ⟨w, awaits⟩
    simp only [initial] at awaits
    split at awaits <;> cases awaits
  ids _ mem := by cases mem

/-- Step lemma. -/
theorem Inv.step {s s' : State φ α} {e : Event φ α} (h : Inv P s)
    (next : Within (OneCall P) (State.step P) s e s') : Inv P s' := by
  obtain ⟨alone, run⟩ := next
  cases e with
  | add w f a =>
      simp only [State.step] at run
      split at run
      next here =>
        obtain ⟨⟨lt, -⟩, ⟨⟩⟩ := Option.ite_none_right_eq_some.mp run
        refine h.moveOutside (by rw [here]; rfl) Nat.one_pos (fun _ => rfl) ?_
        intro _
        refine ⟨lt, ?_⟩
        intro u
        cases active : (s.thread u).active with
        | false => rfl
        | true => exact active ▸ alone u (h.bounded u active)
      next => cases run
  | exit =>
      simp only [State.step] at run
      split at run
      next here =>
        cases run
        exact h.moveOutside (by rw [here]; rfl) trivial (fun _ => rfl) nofun
      next => cases run
  | thread w => exact h.stepThread run
  | core c => exact h.stepCore run

/-- Run lemma. -/
theorem inv_run {s : State φ α} {events : List (Event φ α)}
    (run : Run (Within (OneCall P) (step P)) (initial P) events s) : Inv P s :=
  run.invariant (Inv P) (fun _ _ _ h next => h.step next) inv_initial

/-! ## What it says about the calls -/

variable {s s' : State φ α} {c : Nat}

/-- The function that the core calls next. -/
def aboutToCall (s : State φ α) (c : Nat) : List (φ × α) :=
  match s.core c with
  | .call f a => [(f, a)]
  | _ => []

/-- A core first starts its initializer. Then it starts what the calls that have returned its id
asked for, each once and in order; if it has not started one of them, it is about to call it.
Nothing else is started but what a call waits for. A function is started when those before have
finished. The core is only seen done when it has finished what those calls asked for. -/
structure HandedOver (P : Platform φ α) (s : State φ α) (c : Nat) : Prop where
  first : ∀ j ∈ (s.started c).head?, j = (P.coreInitializer, P.pointer c)
  all : s.results c <+: (s.started c ++ s.aboutToCall c).tail
  called : ∀ f a, s.core c = .call f a →
    ∃ s', s.step P (.core c) = some s' ∧ s'.started c = s.started c ++ [(f, a)]
  only : ∃ current : Option (φ × α),
    (∀ j, current = some j → ∃ w, (s.thread w).awaits c = some j) ∧
      (s.started c).tail <+: s.results c ++ current.toList
  sequential : ∀ e s', s.step P e = some s' → s'.started c ≠ s.started c →
    s.finished c = s.started c
  done : s.isThreadDone (coreToThread c) = true → s.results c <+: (s.finished c).tail

theorem stepThread_started {w : Nat} (run : s.stepThread P w = some s') :
    s'.started c = s.started c := by
  simp only [stepThread] at run
  cases here : s.thread w <;> simp only [here] at run
  case idle | exited => cases run
  case addLoop | addWait =>
    split at run <;> cases run <;> simp
  all_goals
    cases run
    simp

/-- Only the call in `ap_reset` starts a function. -/
theorem Inv.finished_of_starts {e : Event φ α} (h : Inv P s) (run : s.step P e = some s')
    (starts : s'.started c ≠ s.started c) : s.finished c = s.started c := by
  cases e with
  | add w f a =>
      simp only [State.step] at run
      split at run
      · obtain ⟨-, ⟨⟩⟩ := Option.ite_none_right_eq_some.mp run
        exact absurd rfl starts
      · cases run
  | exit =>
      simp only [State.step] at run
      split at run
      · cases run
        exact absurd rfl starts
      · cases run
  | thread w => exact absurd (stepThread_started run) starts
  | core d =>
      have m := stepCore_moved (h.sound d) run
      by_cases same : c = d
      · subst same
        obtain eq | step := m.worker
        · exact absurd (congrArg Worker.State.started eq) starts
        · exact (h.sound c).worker.finished_of_starts step starts
      · exact absurd (m.elsewhere c same).started starts

theorem Inv.results_isPrefix (h : Inv P s) : s.results c <+: (s.posted c).tail := by
  obtain ⟨current, -, ⟨-, none, -⟩ | posted⟩ := h.account c
  · rw [none]
    exact List.nil_prefix
  · rw [posted]
    exact ⟨current.toList, rfl⟩

/-- What is posted and not yet taken is the initializer, or a call waits for it. -/
theorem Inv.started_of_posted (h : Inv P s) {j : φ × α}
    (stage : (s.core c).stage (s.context c) = .posted j) :
    s.started c = [] ∧ s.results c = [] ∨
      s.started c = (P.coreInitializer, P.pointer c) :: s.results c := by
  have owed : s.posted c = s.started c ++ [j] := by
    have ledger := (h.sound c).worker.posted
    simpa only [State.worker, stage, Worker.Stage.owed] using ledger
  obtain ⟨current, iff, account⟩ := h.account c
  have posted := account.resolve_left (by rw [owed]; simp)
  rw [owed] at posted
  obtain none | ⟨w, j', awaits⟩ := h.awaited c ((h.sound c).fits.of_posted stage)
  · rw [none] at posted
    simp only [List.nil_append, List.cons.injEq, List.nil_eq, List.append_eq_nil_iff] at posted
    exact .inl ⟨none, posted.2.1⟩
  · rw [(iff j').mpr ⟨w, awaits⟩, ← List.cons_append] at posted
    exact .inr (List.append_inj_left' posted rfl)

/-- What is started is first the initializer, and then of what was posted. -/
theorem Inv.started_cases (h : Inv P s) (c : Nat) :
    s.started c = [] ∨ ∃ (rest : List (φ × α)) (current : Option (φ × α)),
      s.started c = (P.coreInitializer, P.pointer c) :: rest ∧
        rest <+: s.results c ++ current.toList ∧
        ∀ j, current = some j → ∃ w, (s.thread w).awaits c = some j := by
  have started : s.started c <+: s.posted c := (h.sound c).worker.started_isPrefix
  obtain ⟨current, iff, ⟨none, -, -⟩ | posted⟩ := h.account c
  · rw [none] at started
    exact .inl (List.prefix_nil.mp started)
  · rw [posted] at started
    refine (List.prefix_cons_iff.mp started).imp_right ?_
    rintro ⟨rest, eq, pre⟩
    exact ⟨rest, current, eq, pre, fun j => (iff j).mp⟩

theorem aboutToCall_eq_nil (other : ∀ j, (s.core c).stage (s.context c) ≠ .accepted j) :
    s.aboutToCall c = [] := by
  rw [aboutToCall]
  split
  next f a here => exact absurd (by rw [here]; rfl) (other (f, a))
  next => rfl

/-- What the calls asked for has been started, or is about to be called. -/
theorem Inv.results_isPrefix_started (h : Inv P s) (c : Nat) :
    s.results c <+: (s.started c ++ s.aboutToCall c).tail := by
  have ledger : s.posted c = s.started c ++ ((s.core c).stage (s.context c)).owed :=
    (h.sound c).worker.posted
  have results : s.results c <+: (s.posted c).tail := h.results_isPrefix
  cases stage : (s.core c).stage (s.context c) with
  | posted j =>
      obtain ⟨-, none⟩ | started := h.started_of_posted stage
      · rw [none]
        exact List.nil_prefix
      · rw [started, List.cons_append]
        exact ⟨_, rfl⟩
  | accepted j =>
      rw [ledger, stage] at results
      rw [aboutToCall, Core.eq_call_of_accepted stage]
      exact results
  | free =>
      rw [ledger, stage] at results
      rw [aboutToCall_eq_nil (by rw [stage]; nofun)]
      exact results
  | running j =>
      rw [ledger, stage] at results
      rw [aboutToCall_eq_nil (by rw [stage]; nofun)]
      exact results

theorem Inv.handedOver (h : Inv P s) (c : Nat) : s.HandedOver P c where
  first j mem := by
    obtain none | ⟨rest, current, started, -, -⟩ := h.started_cases c
    · rw [none] at mem
      cases mem
    · rw [started] at mem
      cases mem
      rfl
  all := h.results_isPrefix_started c
  called f a here := by
    simp only [State.step, State.stepCore, here]
    exact ⟨_, rfl, by simp⟩
  only := by
    obtain none | ⟨rest, current, started, pre, awaits⟩ := h.started_cases c
    · refine ⟨Option.none, nofun, ?_⟩
      rw [none]
      exact List.nil_prefix
    · refine ⟨current, awaits, ?_⟩
      rw [started]
      exact pre
  sequential e s' run starts := h.finished_of_starts run starts
  done seen := by
    have done : (s.context c).done = 1 := of_decide_eq_true seen
    obtain free | ⟨j, posted⟩ := (h.sound c).fits.stage_of_done done
    · have finished : s.finished c = s.posted c := (h.sound c).worker.finished_of_free free
      rw [finished]
      exact h.results_isPrefix
    · have finished : s.started c = s.finished c := by
        have ledger := (h.sound c).worker.started
        simpa only [State.worker, posted, Worker.Stage.underway, List.append_nil] using ledger
      obtain ⟨none, -⟩ | started := h.started_of_posted posted
      · rw [finished] at none
        exact absurd none ((h.sound c).flagged (.inl (by rw [done]; exact Nat.one_ne_zero)))
      · rw [← finished, started]
        exact List.prefix_rfl

end State

/-- For any number of cores and any interleaving of `initialize_threads`, the calls of `add_thread`,
one at a time and by any thread, and the loops of the other cores: the ids returned are those of
usable cores, and functions are handed over to them exactly once. -/
theorem add_thread_hands_over_once {φ α : Type} (P : Platform φ α) (events : List (Event φ α))
    (s : State φ α)
    (run : Run (Within (State.OneCall P) (State.step P)) (State.initial P) events s) :
    (∀ call ∈ s.calls, call.id = 0 ∨ ∃ c, 0 < c ∧ c < P.cores ∧ call.id = coreToThread c) ∧
      ∀ c, s.HandedOver P c := by
  have inv := State.inv_run run
  exact ⟨inv.ids, inv.handedOver⟩

/-- Two cores; functions are named by numbers. -/
def samplePlatform : Platform Nat Nat := ⟨2, 0, id, by decide⟩

/-- After initialization the main thread hands over function 7 with argument 5, and waits until it
has been taken; the other core has not called it yet. -/
def sampleHandover : List (Event Nat Nat) :=
  [List.replicate 5 (.thread 0), List.replicate 10 (.core 1), List.replicate 3 (.thread 0),
    [.add 0 7 5], List.replicate 5 (.thread 0), List.replicate 5 (.core 1),
    List.replicate 2 (.thread 0)].flatten

theorem add_thread_hands_over_once_sample : ∃ s : State Nat Nat,
    Run (Within (State.OneCall samplePlatform) (State.step samplePlatform))
      (State.initial samplePlatform) sampleHandover s ∧
      s.calls = [⟨7, 5, 2⟩] ∧ s.started 1 = [(0, 1)] ∧ s.HandedOver samplePlatform 1 := by
  have done : (simulate (State.OneCall samplePlatform) (State.step samplePlatform) sampleHandover
      (State.initial samplePlatform)).map (fun s => (s.calls, s.started 1)) =
      some ([⟨7, 5, 2⟩], [(0, 1)]) := by decide +kernel
  obtain ⟨s, hs, seen⟩ := Option.map_eq_some_iff.mp done
  obtain ⟨calls, started⟩ := Prod.mk.inj seen
  have run := simulate_run hs
  exact ⟨s, run, calls, started, (add_thread_hands_over_once samplePlatform _ s run).2 1⟩

end Monza.Handover
