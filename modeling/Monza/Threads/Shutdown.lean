import Monza.Lib.Tally
import Monza.Threads.HandoverOnce

/-!
# The machine is not shut down early

`executing_cores` counts the cores between the increment and the decrement in `ap_reset`, and the
main thread until the decrement that follows its return. A function that is stored and not yet
taken has somebody counted who waits for it: the caller of `add_thread`, which is the main thread
or runs on a core that is counted, or the main thread in `initialize_threads`. So when the number
is zero nothing is stored, and nothing can be stored any more.
-/

namespace Monza.Handover

open Transition

/-- The core is between its increment and its decrement of `executing_cores`. -/
def Core.executes {φ α : Type} : Core φ α → Bool
  | .clearDone _ _ => true
  | .clearCode _ _ => true
  | .call _ _ => true
  | .running _ _ => true
  | .setDone => true
  | .decrement => true
  | _ => false

theorem Core.Fits.posted_of_stored {φ α : Type} {p : Core φ α} {x : Context φ α} {f : φ}
    (fits : p.Fits x) (code : x.codePtr = some f) : ∃ j, p.stage x = .posted j := by
  cases p <;> simp_all [Core.Fits, Core.stage, Context.stage]

namespace Thread

variable {φ α : Type}

/-- The main thread counts until its decrement of `executing_cores`. -/
def counted : Thread φ α → Bool
  | exitWait => false
  | exited => false
  | _ => true

/-- The main thread, in `initialize_threads`, has given the core its initializer and will wait for
it. -/
def Oversees (c : Nat) : Thread φ α → Prop
  | initLoop i => c < i
  | initArg i => c < i
  | initCode i => c < i
  | initReset i => c ≤ i
  | waitLoop i => i ≤ c
  | waitDone i => i ≤ c
  | _ => False

theorem Oversees.active {p : Thread φ α} {c : Nat} (h : p.Oversees c) : p.active = true := by
  cases p
  case idle | exitDecrement | exitWait | exited => exact h.elim
  all_goals rfl

theorem active_of_awaits {p : Thread φ α} {c : Nat} {j : φ × α} (awaits : p.awaits c = some j) :
    p.active = true := by
  cases active : p.active with
  | true => rfl
  | false =>
      rw [awaits_eq_none active] at awaits
      cases awaits

end Thread

namespace State

variable {φ α : Type} {P : Platform φ α}

/-- The number of cores between their increment and their decrement. -/
def executingCores (P : Platform φ α) (s : State φ α) : Nat :=
  tally Core.executes s.core P.cores

/-- Who is counted, and for whom the counted wait. -/
structure Counted (P : Platform φ α) (s : State φ α) : Prop where
  usable : ∀ c, s.core c ≠ .off → 0 < c ∧ c < P.cores
  placed : ∀ w, (s.thread w).Placed P w
  caller : ∀ w, 0 < w → (s.thread w).active = true → ∃ f a, s.core w = .running f a
  overseen : ∀ c, s.posted c ≠ [] → s.started c = [] →
    (0 < c ∧ c < P.cores) ∧ (s.thread 0).Oversees c
  executing : s.executing = s.executingCores P + (s.thread 0).counted.toNat
  exited : s.thread 0 = .exited → s.executingCores P = 0

variable {s s' : State φ α} {c w : Nat}

/-- The first core runs the main thread and is not among them. -/
theorem executingCores_lt (usable : ∀ c, s.core c ≠ .off → 0 < c ∧ c < P.cores) :
    s.executingCores P < P.cores := by
  refine Tally.lt_of_not P.cores_pos ?_
  by_cases off : s.core 0 = .off
  · rw [off]
    rfl
  · exact absurd (usable 0 off).1 (Nat.lt_irrefl 0)

theorem Counted.executing_lt (h : Counted P s) (size : P.cores < 2 ^ 64) :
    s.executing < 2 ^ 64 := by
  have few := executingCores_lt h.usable
  have one := Bool.toNat_le (s.thread 0).counted
  rw [h.executing]
  omega

theorem Counted.executes_lt (h : Counted P s) (executes : (s.core c).executes = true) :
    c < P.cores := by
  refine (h.usable c ?_).2
  intro off
  rw [off] at executes
  cases executes

theorem Counted.not_executes (h : Counted P s) (none : s.executingCores P = 0) (c : Nat) :
    (s.core c).executes = false := by
  cases executes : (s.core c).executes with
  | false => rfl
  | true =>
      have not := Tally.eq_zero_iff.mp none c (h.executes_lt executes)
      rw [executes] at not
      cases not

theorem Inv.posted_of_stored (h : Inv P s) (stored : (s.context c).codePtr ≠ none) :
    s.posted c ≠ [] := by
  obtain ⟨f, code⟩ := Option.ne_none_iff_exists'.mp stored
  have ledger : s.posted c = s.started c ++ ((s.core c).stage (s.context c)).owed :=
    (h.sound c).worker.posted
  obtain ⟨j, posted⟩ := (h.sound c).fits.posted_of_stored code
  rw [ledger, posted]
  simp [Worker.Stage.owed]

/-- Who waits for what is stored is counted. -/
theorem Counted.not_stored (h : Counted P s) (inv : Inv P s) (zero : s.executingCores P = 0)
    (main : (s.thread 0).active = false) (c : Nat) : (s.context c).codePtr = none := by
  by_contra stored
  obtain first | ⟨w, j, awaits⟩ := inv.awaited c stored
  · have overseen := (h.overseen c (inv.posted_of_stored stored) first).2.active
    rw [main] at overseen
    cases overseen
  · have active := Thread.active_of_awaits awaits
    obtain rfl | pos := Nat.eq_zero_or_pos w
    · rw [main] at active
      cases active
    · obtain ⟨f, a, running⟩ := h.caller w pos active
      have not := h.not_executes zero w
      rw [running] at not
      cases not

/-! ## Steps of the cores -/

/-- Only the increment and the decrement change whether the core is counted. -/
theorem stepCore_executing (run : s.stepCore c = some s') :
    s'.executing = s.executing ∧ (s'.core c).executes = (s.core c).executes ∨
      (∃ f a, s.core c = .increment f a ∧ s'.core c = .clearDone f a ∧
        s'.executing = u64 (s.executing + 1)) ∨
      s.core c = .decrement ∧ s'.core c = .loop ∧ s'.executing = sub64 s.executing 1 := by
  simp only [stepCore] at run
  cases here : s.core c <;> simp only [here] at run
  case off => cases run
  case loop => split at run <;> cases run <;> exact .inl ⟨rfl, by simp [Core.executes]⟩
  case running f a =>
    obtain ⟨-, ⟨⟩⟩ := Option.ite_none_left_eq_some.mp run
    exact .inl ⟨rfl, by simp [Core.executes]⟩
  case increment f a =>
    cases run
    exact .inr (.inl ⟨f, a, rfl, by simp, rfl⟩)
  case decrement =>
    cases run
    exact .inr (.inr ⟨rfl, by simp, rfl⟩)
  all_goals
    cases run
    exact .inl ⟨rfl, by simp [Core.executes]⟩

theorem stepCore_started (run : s.stepCore c = some s') (d : Nat) :
    s.started d <+: s'.started d := by
  simp only [stepCore] at run
  cases here : s.core c <;> simp only [here] at run
  case off => cases run
  case loop => split at run <;> cases run <;> exact List.prefix_rfl
  case running f a =>
    obtain ⟨-, ⟨⟩⟩ := Option.ite_none_left_eq_some.mp run
    exact List.prefix_rfl
  case call f a =>
    cases run
    by_cases same : d = c
    · subst same
      simp
    · simp [same]
  all_goals
    cases run
    exact List.prefix_rfl

/-- A function returns when its calls of `add_thread` have. -/
theorem stepCore_running {f : φ} {a : α} (run : s.stepCore c = some s')
    (here : s.core c = .running f a) : (s.thread c).active = false := by
  simp only [stepCore, here] at run
  exact Bool.eq_false_iff.mpr (Option.ite_none_left_eq_some.mp run).1

/-- The count follows the core, and does not wrap. -/
theorem Counted.executing_stepCore (h : Counted P s) (size : P.cores < 2 ^ 64)
    (usable : c < P.cores) (few : s'.executingCores P < P.cores)
    (core : s'.core = Function.update s.core c (s'.core c)) (thread : s'.thread = s.thread)
    (run : s.stepCore c = some s') :
    s'.executing = s'.executingCores P + (s'.thread 0).counted.toNat := by
  have moved : s'.executingCores P + (s.core c).executes.toNat =
      s.executingCores P + (s'.core c).executes.toNat := by
    rw [executingCores, core, Tally.update usable, Function.update_self]
    rfl
  have one := Bool.toNat_le (s.thread 0).counted
  have small := h.executing_lt size
  have before := h.executing
  rw [thread]
  obtain ⟨executing, same⟩ | ⟨f, a, here, next, executing⟩ | ⟨here, next, executing⟩ :=
    stepCore_executing run
  · rw [same] at moved
    omega
  · simp only [here, next, Core.executes, Bool.toNat_false, Bool.toNat_true] at moved
    rw [executing, u64_of_lt (by omega)]
    omega
  · simp only [here, next, Core.executes, Bool.toNat_false, Bool.toNat_true] at moved
    rw [executing, sub64_of_le small (by omega)]
    omega

theorem Counted.stepCore (h : Counted P s) (inv : Inv P s) (size : P.cores < 2 ^ 64)
    (run : s.stepCore c = some s') : Counted P s' := by
  have m := stepCore_moved (inv.sound c) run
  have core : s'.core = Function.update s.core c (s'.core c) :=
    Function.eq_update_iff.mpr ⟨rfl, fun d ne => (m.elsewhere d ne).core⟩
  have usable : ∀ d, s'.core d ≠ .off → 0 < d ∧ d < P.cores := by
    intro d on
    by_cases same : d = c
    · exact same ▸ h.usable c m.on
    · exact h.usable d ((m.elsewhere d same).core ▸ on)
  refine ⟨usable, ?_, ?_, ?_, ?_, ?_⟩
  · rw [m.thread]
    exact h.placed
  · intro w pos active
    rw [m.thread] at active
    obtain ⟨f, a, here⟩ := h.caller w pos active
    by_cases same : w = c
    · subst same
      rw [stepCore_running run here] at active
      cases active
    · exact ⟨f, a, (m.elsewhere w same).core.trans here⟩
  · intro d posted first
    rw [m.posted] at posted
    rw [m.thread]
    exact h.overseen d posted (List.prefix_nil.mp (first ▸ stepCore_started run d))
  · exact h.executing_stepCore size (h.usable c m.on).2 (executingCores_lt usable) core m.thread run
  · intro exited
    rw [m.thread] at exited
    have zero := h.exited exited
    have not := h.not_executes zero c
    obtain ⟨-, same⟩ | ⟨f, a, here, -, -⟩ | ⟨here, -, -⟩ := stepCore_executing run
    · rw [executingCores, core, Tally.update_of_same same]
      exact zero
    · have stored := (inv.sound c).fits
      rw [here] at stored
      have none := h.not_stored inv zero (by rw [exited]; rfl) c
      rw [Core.Fits, none] at stored
      cases stored
    · rw [here] at not
      cases not

/-! ## Steps of the threads -/

theorem running_of_runs (pos : 0 < w) (runs : s.runs w = true) :
    ∃ f a, s.core w = .running f a := by
  obtain ⟨v, rfl⟩ := Nat.exists_eq_succ_of_ne_zero (Nat.ne_of_gt pos)
  cases here : s.core (v + 1) <;> simp only [State.runs, here] at runs
  case running f a => exact ⟨f, a, rfl⟩
  all_goals cases runs

variable {p : Thread φ α}

/-- What is left to show for a step of a thread. Cores are only started. -/
theorem Counted.of_thread (h : Counted P s) (thread : s'.thread = Function.update s.thread w p)
    (started : s'.started = s.started)
    (core : ∀ c, s'.core c = s.core c ∨
      s.core c = .off ∧ s'.core c = .start ∧ 0 < c ∧ c < P.cores)
    (placed : p.Placed P w)
    (caller : 0 < w → p.active = true → ∃ f a, s.core w = .running f a)
    (overseen : ∀ c, s'.posted c ≠ [] → s.started c = [] →
      (0 < c ∧ c < P.cores) ∧ (s'.thread 0).Oversees c)
    (executing : s'.executing + (s.thread 0).counted.toNat =
      s.executing + (s'.thread 0).counted.toNat)
    (exits : p = .exited → s.executingCores P = 0) : Counted P s' := by
  have same : s'.executingCores P = s.executingCores P := by
    refine Tally.congr ?_
    intro c
    obtain eq | ⟨off, start, -⟩ := core c
    · rw [eq]
    · rw [off, start]
      rfl
  have still : ∀ c f a, s.core c = .running f a → s'.core c = .running f a := by
    intro c f a running
    obtain eq | ⟨off, -⟩ := core c
    · exact eq.trans running
    · rw [running] at off
      cases off
  refine ⟨?_, ?_, ?_, started ▸ overseen, ?_, ?_⟩
  · intro c on
    obtain eq | ⟨-, -, usable⟩ := core c
    · exact h.usable c (eq ▸ on)
    · exact usable
  · rw [thread]
    exact (Function.forall_update_iff s.thread fun u q => q.Placed P u).mpr
      ⟨placed, fun u _ => h.placed u⟩
  · intro u pos active
    rw [thread] at active
    by_cases self : u = w
    · subst self
      rw [Function.update_self] at active
      obtain ⟨f, a, running⟩ := caller pos active
      exact ⟨f, a, still u f a running⟩
    · rw [Function.update_of_ne self] at active
      obtain ⟨f, a, running⟩ := h.caller u pos active
      exact ⟨f, a, still u f a running⟩
  · have before := h.executing
    rw [same]
    omega
  · intro exited
    rw [same]
    rw [thread] at exited
    by_cases main : 0 = w
    · subst main
      rw [Function.update_self] at exited
      exact exits exited
    · rw [Function.update_of_ne main] at exited
      exact h.exited exited

/-- A step that only moves the thread. -/
theorem Counted.moveThread (h : Counted P s) (thread : s'.thread = Function.update s.thread w p)
    (core : s'.core = s.core) (posted : s'.posted = s.posted) (started : s'.started = s.started)
    (executing : s'.executing = s.executing) (placed : p.Placed P w)
    (caller : 0 < w → p.active = true → ∃ f a, s.core w = .running f a)
    (oversees : ∀ c, 0 < c ∧ c < P.cores → s.started c = [] →
      (s.thread w).Oversees c → p.Oversees c)
    (counted : p.counted = (s.thread w).counted) (exits : p = .exited → s.executingCores P = 0) :
    Counted P s' := by
  refine h.of_thread thread started (fun c => .inl (congrFun core c)) placed caller ?_ ?_ exits
  · intro c given first
    rw [posted] at given
    obtain ⟨usable, before⟩ := h.overseen c given first
    refine ⟨usable, ?_⟩
    rw [thread]
    by_cases main : 0 = w
    · subst main
      rw [Function.update_self]
      exact oversees c usable first before
    · rw [Function.update_of_ne main]
      exact before
  · rw [executing, thread]
    by_cases main : 0 = w
    · subst main
      rw [Function.update_self, counted]
    · rw [Function.update_of_ne main]

/-- A core that has been seen done has started something. -/
theorem Inv.started_of_done (h : Inv P s) (done : (s.context c).done ≠ 0) : s.started c ≠ [] := by
  intro none
  have ledger : s.started c = s.finished c ++ ((s.core c).stage (s.context c)).underway :=
    (h.sound c).worker.started
  rw [none] at ledger
  exact (h.sound c).flagged (.inl done) (List.append_eq_nil_iff.mp ledger.symm).1

theorem Counted.initCode (h : Counted P s) {i : Nat} (here : s.thread w = .initCode i) :
    Counted P ((s.storeCode i P.coreInitializer).setThread w (.initReset i)) := by
  have placed := h.placed w
  rw [here] at placed
  obtain ⟨rfl, usable⟩ := placed
  refine h.of_thread rfl rfl (fun _ => .inl rfl) ⟨rfl, usable⟩
    (fun pos => absurd pos (Nat.lt_irrefl 0)) ?_ ?_ (fun no => by cases no)
  · intro c posted first
    rw [setThread_thread, Function.update_self]
    by_cases same : c = i
    · exact ⟨same ▸ usable, Nat.le_of_eq same⟩
    · have before : s.posted c ≠ [] := by simpa [same] using posted
      obtain ⟨lt, oversees⟩ := h.overseen c before first
      rw [here] at oversees
      exact ⟨lt, Nat.le_of_lt oversees⟩
  · rw [setThread_thread, Function.update_self, here]
    rfl

theorem Counted.initReset (h : Counted P s) (inv : Inv P s) {i : Nat}
    (here : s.thread w = .initReset i) :
    Counted P ((s.setCore i .start).setThread w (.initLoop (i + 1))) := by
  have placed := h.placed w
  have fits := inv.thread w
  rw [here] at placed fits
  obtain ⟨rfl, usable⟩ := placed
  refine h.of_thread rfl rfl ?_ ⟨rfl, Nat.succ_pos i⟩ (fun pos => absurd pos (Nat.lt_irrefl 0))
    ?_ ?_ (fun no => by cases no)
  · intro c
    by_cases same : c = i
    · subst same
      exact .inr ⟨fits.2, by simp, usable⟩
    · exact .inl (by simp [same])
  · intro c posted first
    rw [setThread_thread, Function.update_self]
    obtain ⟨lt, oversees⟩ := h.overseen c posted first
    rw [here] at oversees
    exact ⟨lt, Nat.lt_succ_of_le oversees⟩
  · rw [setThread_thread, Function.update_self, here]
    rfl

theorem Counted.addCode (h : Counted P s) (inv : Inv P s) {i : Nat} {f : φ} {a : α}
    (here : s.thread w = .addCode i f a) :
    Counted P ((s.storeCode i f).setThread w (.addWait i f a)) := by
  have fits := inv.thread w
  rw [here] at fits
  have ready := inv.started_of_done (c := i) (by rw [fits.2.1.1]; exact Nat.one_ne_zero)
  refine h.of_thread rfl rfl (fun _ => .inl rfl) trivial
    (fun pos _ => h.caller w pos (by rw [here]; rfl)) ?_ ?_ (fun no => by cases no)
  · intro c posted first
    have other : c ≠ i := fun same => ready (same ▸ first)
    obtain ⟨lt, oversees⟩ := h.overseen c (by simpa [other] using posted) first
    refine ⟨lt, ?_⟩
    rw [setThread_thread]
    by_cases main : 0 = w
    · rw [main, here] at oversees
      exact oversees.elim
    · rw [Function.update_of_ne main]
      exact oversees
  · rw [setThread_thread]
    by_cases main : 0 = w
    · subst main
      rw [Function.update_self, here]
      rfl
    · rw [Function.update_of_ne main]
      rfl

theorem Counted.exitDecrement (h : Counted P s) (size : P.cores < 2 ^ 64)
    (here : s.thread w = .exitDecrement) :
    Counted P ({ s with executing := sub64 s.executing 1 }.setThread w .exitWait) := by
  have placed := h.placed w
  rw [here] at placed
  obtain rfl := placed
  have before := h.executing
  simp only [here, Thread.counted, Bool.toNat_true] at before
  rw [sub64_of_le (h.executing_lt size) (by omega)]
  refine h.of_thread rfl rfl (fun _ => .inl rfl) rfl (fun pos => absurd pos (Nat.lt_irrefl 0))
    ?_ ?_ (fun no => by cases no)
  · intro c posted first
    have oversees := (h.overseen c posted first).2
    rw [here] at oversees
    exact oversees.elim
  · simp only [setThread_thread, Function.update_self, here, setThread_executing, Thread.counted,
      Bool.toNat_true, Bool.toNat_false]
    omega

/-- A step of a thread that stays in the library or leaves it. -/
theorem Counted.moveActive (h : Counted P s) (active : (s.thread w).active = true)
    (thread : s'.thread = Function.update s.thread w p)
    (core : s'.core = s.core) (posted : s'.posted = s.posted) (started : s'.started = s.started)
    (executing : s'.executing = s.executing) (placed : p.Placed P w) (counts : p.counted = true)
    (oversees : ∀ c, 0 < c ∧ c < P.cores → s.started c = [] →
      (s.thread w).Oversees c → p.Oversees c) : Counted P s' := by
  have before : (s.thread w).counted = true := by
    cases here : s.thread w <;> rw [here] at active
    case exitWait | exited => cases active
    all_goals rfl
  refine h.moveThread thread core posted started executing placed
    (fun pos _ => h.caller w pos active) oversees (counts.trans before.symm) ?_
  rintro rfl
  cases counts

theorem Counted.exitWait (h : Counted P s) (here : s.thread w = .exitWait) :
    Counted P (s.setThread w (if 0 < s.executing then .exitWait else .exited)) := by
  have placed := h.placed w
  rw [here] at placed
  obtain rfl := placed
  split
  next =>
    exact h.moveThread rfl rfl rfl rfl rfl rfl (fun pos => absurd pos (Nat.lt_irrefl 0))
      (by rw [here]; exact fun _ _ _ => id) (by rw [here]) (fun no => by cases no)
  next none =>
    refine h.moveThread rfl rfl rfl rfl rfl rfl (fun pos => absurd pos (Nat.lt_irrefl 0))
      (by rw [here]; exact fun _ _ _ => id) (by rw [here]; rfl) ?_
    intro _
    have executing := h.executing
    rw [here] at executing
    simp only [Thread.counted, Bool.toNat_false] at executing
    omega

/-- Step lemma for the threads. -/
theorem Counted.stepThread (h : Counted P s) (inv : Inv P s) (size : P.cores < 2 ^ 64)
    (run : s.stepThread P w = some s') : Counted P s' := by
  have placed := h.placed w
  simp only [State.stepThread] at run
  cases here : s.thread w <;> simp only [here, Thread.Placed] at run placed
  case idle | exited => cases run
  case initLoop i =>
    cases run
    split
    next lt =>
      exact h.moveActive (by rw [here]; rfl) rfl rfl rfl rfl rfl ⟨placed.1, placed.2, lt⟩ rfl
        (by rw [here]; exact fun _ _ _ => id)
    next =>
      exact h.moveActive (by rw [here]; rfl) rfl rfl rfl rfl rfl placed.1 rfl
        (fun c usable _ _ => usable.1)
  case initArg i =>
    cases run
    exact h.moveActive (by rw [here]; rfl) rfl rfl rfl rfl rfl placed rfl
      (by rw [here]; exact fun _ _ _ => id)
  case initCode i =>
    cases run
    exact h.initCode here
  case initReset i =>
    cases run
    exact h.initReset inv here
  case waitLoop i =>
    cases run
    split
    next =>
      exact h.moveActive (by rw [here]; rfl) rfl rfl rfl rfl rfl placed rfl
        (by rw [here]; exact fun _ _ _ => id)
    next all =>
      refine h.moveActive (by rw [here]; rfl) rfl rfl rfl rfl rfl trivial rfl ?_
      rw [here]
      exact fun c usable _ le => all (Nat.lt_of_le_of_lt le usable.2)
  case waitDone i =>
    cases run
    split
    next =>
      exact h.moveActive (by rw [here]; rfl) rfl rfl rfl rfl rfl placed rfl
        (by rw [here]; exact fun _ _ _ => id)
    next done =>
      -- The initializer of this core has run; the main thread waits for those behind it.
      refine h.moveActive (by rw [here]; rfl) rfl rfl rfl rfl rfl placed rfl ?_
      rw [here]
      intro c _ first le
      exact Nat.lt_of_le_of_ne le fun same => inv.started_of_done done (same ▸ first)
  case addCode i f a =>
    cases run
    exact h.addCode inv here
  case addLoop i f a | addWait i f a =>
    split at run <;> cases run <;>
      exact h.moveActive (by rw [here]; rfl) rfl rfl rfl rfl rfl trivial rfl
        (by rw [here]; exact fun _ _ _ => False.elim)
  case addLoad i f a =>
    cases run
    split <;>
      exact h.moveActive (by rw [here]; rfl) rfl rfl rfl rfl rfl trivial rfl
        (by rw [here]; exact fun _ _ _ => False.elim)
  case addArg i f a | addPing i f a =>
    cases run
    exact h.moveActive (by rw [here]; rfl) rfl rfl rfl rfl rfl trivial rfl
      (by rw [here]; exact fun _ _ _ => False.elim)
  case exitDecrement =>
    cases run
    exact h.exitDecrement size here
  case exitWait =>
    cases run
    exact h.exitWait here

theorem counted_initial : Counted P (initial P) where
  usable c on := absurd rfl on
  placed w := by
    by_cases main : w = 0
    · simp [initial, main, Thread.Placed]
    · simp [initial, main, Thread.Placed]
  caller w pos active := by
    simp [initial, Nat.ne_of_gt pos, Thread.active] at active
  overseen c posted _ := absurd rfl posted
  executing := by
    have none : (initial P).executingCores P = 0 := Tally.eq_zero_iff.mpr fun _ _ => rfl
    rw [none]
    rfl
  exited exited := by cases exited

/-- Step lemma. -/
theorem Counted.step {e : Event φ α} (h : Counted P s) (inv : Inv P s) (size : P.cores < 2 ^ 64)
    (run : s.step P e = some s') : Counted P s' := by
  cases e with
  | add w f a =>
      simp only [State.step] at run
      split at run
      next here =>
        obtain ⟨⟨-, runs⟩, ⟨⟩⟩ := Option.ite_none_right_eq_some.mp run
        refine h.moveThread rfl rfl rfl rfl rfl trivial ?_
          (by rw [here]; exact fun _ _ _ => False.elim) (by rw [here]; rfl)
          (fun no => by cases no)
        intro pos _
        exact running_of_runs pos runs
      next => cases run
  | exit =>
      simp only [State.step] at run
      split at run
      next here =>
        cases run
        exact h.moveThread rfl rfl rfl rfl rfl rfl (fun pos => absurd pos (Nat.lt_irrefl 0))
          (by rw [here]; exact fun _ _ _ => False.elim) (by rw [here]; rfl)
          (fun no => by cases no)
      next => cases run
  | thread w => exact h.stepThread inv size run
  | core c => exact h.stepCore inv size run

/-- Run lemma. -/
theorem counted_run {events : List (Event φ α)} (size : P.cores < 2 ^ 64)
    (run : Run (Within (OneCall P) (State.step P)) (initial P) events s) : Counted P s := by
  have both : Inv P s ∧ Counted P s := by
    refine run.invariant (fun s => Inv P s ∧ Counted P s) ?_ ⟨inv_initial, counted_initial⟩
    rintro s e s' ⟨inv, counted⟩ next
    exact ⟨inv.step next, counted.step inv size next.2⟩
  exact both.2

end State

/-- For any number of cores and any interleaving of the main thread, the functions it starts and
those they start, with one call of `add_thread` at a time, and the loops of the other cores:
`executing_cores` is the number of cores between their increment and their decrement, and one more
until the main thread has returned and made its own. When `monza_main` reaches `monza_exit`, no
core executes a function, and no function is stored for any. -/
theorem no_premature_shutdown {φ α : Type} (P : Platform φ α) (size : P.cores < 2 ^ 64)
    (events : List (Event φ α)) (s : State φ α)
    (run : Run (Within (State.OneCall P) (State.step P)) (State.initial P) events s) :
    s.executing = s.executingCores P + (s.thread 0).counted.toNat ∧
      (s.thread 0 = .exited →
        ∀ c, (s.core c).executes = false ∧ (s.context c).codePtr = none) := by
  have inv := State.inv_run run
  have counted := State.counted_run size run
  refine ⟨counted.executing, ?_⟩
  intro exited c
  have zero := counted.exited exited
  exact ⟨counted.not_executes zero c, counted.not_stored inv zero (by rw [exited]; rfl) c⟩

/-- The main thread returns while the function it has handed over is about to be called, and exits
when that has finished. -/
def sampleShutdown : List (Event Nat Nat) :=
  [sampleHandover, [.exit], List.replicate 3 (.thread 0), List.replicate 4 (.core 1),
    [.thread 0]].flatten

theorem no_premature_shutdown_sample : ∃ s : State Nat Nat,
    Run (Within (State.OneCall samplePlatform) (State.step samplePlatform))
      (State.initial samplePlatform) sampleShutdown s ∧
      s.thread 0 = .exited ∧ s.finished 1 = [(0, 1), (7, 5)] ∧
      ∀ c, (s.core c).executes = false ∧ (s.context c).codePtr = none := by
  have done : (simulate (State.OneCall samplePlatform) (State.step samplePlatform) sampleShutdown
      (State.initial samplePlatform)).map (fun s => (s.thread 0, s.finished 1)) =
      some (.exited, [(0, 1), (7, 5)]) := by decide +kernel
  obtain ⟨s, hs, seen⟩ := Option.map_eq_some_iff.mp done
  obtain ⟨exited, finished⟩ := Prod.mk.inj seen
  have run := simulate_run hs
  exact ⟨s, run, exited, finished,
    (no_premature_shutdown samplePlatform (by decide) _ s run).2 exited⟩

end Monza.Handover
