import Monza.Threads.MutexSafety

/-!
# Signals and broadcasts reach their waiters

A mutex sleep and a condition sleep use one semaphore. By the account of the entries a thread
leaves either only after its own entry was dequeued, and an entry of a condition variable is
dequeued by `signal` and `broadcast` only. A signal takes the oldest entry. A broadcast wakes
the entries that were queued when it took the spinlock, since nobody touches the queue before
it has moved them all.
-/

namespace Monza.Threads

open Transition WaitQueue

/-- Which operations dequeue entries of an object. -/
def Operation.Fits {μ ν : Type} : Operation → Object μ ν → Prop
  | unlock, .mutex _ => True
  | signal, .condition _ => True
  | broadcast, .condition _ => True
  | _, _ => False

namespace Phase

variable {τ μ ν : Type}

/-- A broadcast moves and wakes the entries it has found. -/
def Recorded (waiters : Object μ ν → List (WaitEntry τ μ ν))
    (dequeued : List (WaitEntry τ μ ν × Operation)) (woken : List (WaitEntry τ μ ν)) :
    Phase τ μ ν → Prop
  | broadcastMove v found localQueue => found = localQueue ++ waiters (.condition v) ∧
      ∀ e ∈ localQueue, (e, Operation.broadcast) ∈ dequeued
  | broadcastRelease _ found localQueue => found = localQueue ∧
      ∀ e ∈ localQueue, (e, Operation.broadcast) ∈ dequeued
  | broadcastWake _ found localQueue => (∀ e ∈ found, (e, Operation.broadcast) ∈ dequeued) ∧
      ∃ done, found = done ++ localQueue ∧ ∀ e ∈ done, e ∈ woken
  | _ => True

theorem Recorded.mono {waiters waiters' : Object μ ν → List (WaitEntry τ μ ν)}
    {dequeued dequeued' : List (WaitEntry τ μ ν × Operation)}
    {woken woken' : List (WaitEntry τ μ ν)} {p : Phase τ μ ν}
    (h : p.Recorded waiters dequeued woken)
    (queues : ∀ v, p.inside = some (.condition v) →
      waiters' (.condition v) = waiters (.condition v))
    (more : ∀ x ∈ dequeued, x ∈ dequeued') (more' : ∀ e ∈ woken, e ∈ woken') :
    p.Recorded waiters' dequeued' woken' := by
  cases p with
  | broadcastMove v found localQueue =>
      refine ⟨?_, fun e mem => more _ (h.2 e mem)⟩
      rw [queues v rfl]
      exact h.1
  | broadcastRelease v found localQueue => exact ⟨h.1, fun e mem => more _ (h.2 e mem)⟩
  | broadcastWake v found localQueue =>
      obtain ⟨moved, done, split, paid⟩ := h
      exact ⟨fun e mem => more _ (moved e mem), done, split, fun e mem => more' e (paid e mem)⟩
  | _ => trivial

end Phase

namespace State

variable {τ μ ν : Type}

structure Recorded (s : State τ μ ν) : Prop where
  fits : ∀ e op, (e, op) ∈ s.dequeued → op.Fits e.object
  phase : ∀ t, (s.phase t).Recorded s.waiters s.dequeued s.woken

namespace Recorded

variable [DecidableEq τ] {s s' : State τ μ ν} {t : τ} {p : Phase τ μ ν} {o : Object μ ν}

/-- A step of one thread, from what the others see of it. -/
theorem update (h : s.Recorded) (phase : s'.phase = Function.update s.phase t p)
    (fits : ∀ e op, (e, op) ∈ s'.dequeued → op.Fits e.object)
    (queues : ∀ u, u ≠ t → ∀ v, (s.phase u).inside = some (.condition v) →
      s'.waiters (.condition v) = s.waiters (.condition v))
    (more : ∀ x ∈ s.dequeued, x ∈ s'.dequeued) (more' : ∀ e ∈ s.woken, e ∈ s'.woken)
    (next : p.Recorded s'.waiters s'.dequeued s'.woken) : s'.Recorded where
  fits := fits
  phase := by
    intro u
    rw [phase]
    by_cases same : u = t
    · subst same
      simpa using next
    · rw [Function.update_of_ne same]
      exact (h.phase u).mono (queues u same) more more'

theorem moveTo (h : s.Recorded) (next : p.Recorded s.waiters s.dequeued s.woken) :
    (s.moveTo t p).Recorded :=
  h.update rfl h.fits (fun _ _ _ _ => rfl) (fun _ => id) (fun _ => id) next

theorem wake (h : s.Recorded) {e : WaitEntry τ μ ν}
    (next : p.Recorded s.waiters s.dequeued (e :: s.woken)) : (s.wake t e p).Recorded :=
  h.update rfl h.fits (fun _ _ _ _ => rfl) (fun _ => id) (fun _ => List.mem_cons_of_mem _) next

theorem wakeEntry (h : s.Recorded) {entry : Option (WaitEntry τ μ ν)}
    (next : ∀ w, p.Recorded s.waiters s.dequeued w) : (s.wakeEntry t entry p).Recorded := by
  cases entry with
  | none => exact h.moveTo (next _)
  | some e => exact h.wake (next _)

variable [DecidableEq μ] [DecidableEq ν]

omit [DecidableEq τ] in
/-- Nobody else is inside the spinlock of a queue that changes. -/
theorem queues (inv : WaitQueue.Inv s.waits) (inside : (s.phase t).inside = some o)
    {l : List (WaitEntry τ μ ν)} : ∀ u, u ≠ t → ∀ v, (s.phase u).inside = some (.condition v) →
      Function.update s.waiters o l (.condition v) = s.waiters (.condition v) := by
  intro u other v there
  have ne : Object.condition v ≠ o := by
    rintro rfl
    exact other (inv.exclusive u t _ there inside)
  exact Function.update_of_ne ne ..

theorem acquireSpin (h : s.Recorded) (next : p.Recorded s.waiters s.dequeued s.woken) :
    (s.acquireSpin t o p).Recorded := by
  rw [State.acquireSpin]
  refine moveTo ⟨h.fits, h.phase⟩ ?_
  split
  · exact h.phase t
  · exact next

theorem enqueue (h : s.Recorded) (inv : WaitQueue.Inv s.waits)
    (inside : (s.phase t).inside = some o) {next : WaitEntry τ μ ν → Phase τ μ ν}
    (plain : ∀ e w d k, (next e).Recorded w d k) : (s.enqueue t o next).Recorded :=
  h.update rfl h.fits (queues inv inside) (fun _ => id) (fun _ => id) (plain _ _ _ _)

theorem dequeue (h : s.Recorded) (inv : WaitQueue.Inv s.waits)
    (inside : (s.phase t).inside = some o) {op : Operation} (fits : op.Fits o)
    {next : Option (WaitEntry τ μ ν) → Phase τ μ ν}
    (empty : s.waiters o = [] → (next none).Recorded s.waiters s.dequeued s.woken)
    (first : ∀ e rest, s.waiters o = e :: rest → (next (some e)).Recorded
      (Function.update s.waiters o rest) ((e, op) :: s.dequeued) s.woken) :
    (s.dequeue t o op next).Recorded := by
  cases queue : s.waiters o with
  | nil =>
      simp only [State.dequeue, queue]
      exact h.moveTo (empty queue)
  | cons e rest =>
      simp only [State.dequeue, queue]
      refine h.update rfl ?_ (queues inv inside) (fun _ => List.mem_cons_of_mem _) (fun _ => id)
        (first e rest queue)
      intro e' op' mem
      obtain same | mem := List.mem_cons.mp mem
      · cases same
        have head : e ∈ s.waiters o := queue ▸ List.mem_cons_self
        rw [(inv.queued o e head).1]
        exact fits
      · exact h.fits e' op' mem

theorem advance (h : s.Recorded) (inv : WaitQueue.Inv s.waits) (run : s.advance t = some s') :
    s'.Recorded := by
  have recorded := h.phase t
  simp only [State.advance] at run
  cases here : s.phase t <;> rw [here] at run recorded
  case idle => cases run
  case lockSpin | unlockSpin | waitSpin | signalSpin =>
    cases run
    exact h.acquireSpin trivial
  case broadcastSpin =>
    cases run
    exact h.acquireSpin ⟨rfl, List.forall_mem_nil _⟩
  case lockReturn | lockRelease | unlockRelease | waitRelease | signalRelease =>
    cases run
    exact moveTo ⟨h.fits, h.phase⟩ trivial
  case broadcastRelease v found localQueue =>
    cases run
    obtain ⟨rfl, moved⟩ := recorded
    exact moveTo ⟨h.fits, h.phase⟩ ⟨moved, [], rfl, List.forall_mem_nil _⟩
  case lockExchange | tryExchange =>
    cases run
    rw [State.exchange]
    split
    · exact h.moveTo trivial
    · exact moveTo ⟨h.fits, h.phase⟩ trivial
  case lockEnqueue | waitEnqueue =>
    cases run
    exact h.enqueue inv (by rw [here]; rfl) (fun _ _ _ _ => trivial)
  case lockSleep | waitSleep =>
    obtain ⟨-, ⟨⟩⟩ := Option.ite_none_right_eq_some.mp run
    exact moveTo ⟨h.fits, h.phase⟩ trivial
  case unlockStore =>
    cases run
    exact moveTo ⟨h.fits, h.phase⟩ trivial
  case unlockDequeue | signalDequeue =>
    cases run
    exact h.dequeue inv (by rw [here]; rfl) (by trivial) (fun _ => trivial) (fun _ _ _ => trivial)
  case broadcastMove v found localQueue =>
    cases run
    obtain ⟨split, moved⟩ := recorded
    refine h.dequeue inv (by rw [here]; rfl) (by trivial) ?_ ?_
    · intro empty
      rw [empty, List.append_nil] at split
      exact ⟨split, moved⟩
    · intro e rest queue
      refine ⟨?_, ?_⟩
      · rw [split, queue, Function.update_self, List.append_assoc]
        rfl
      · intro e' mem
        obtain mem | mem := List.mem_append.mp mem
        · exact List.mem_cons_of_mem _ (moved e' mem)
        · rw [List.mem_singleton.mp mem]
          exact List.mem_cons_self
  case unlockWake m caller entry =>
    cases caller <;> cases run <;> exact h.wakeEntry (fun _ => trivial)
  case signalWake =>
    cases run
    exact h.wakeEntry (fun _ => trivial)
  case broadcastWake v found localQueue =>
    cases localQueue with
    | nil =>
        cases run
        exact h.moveTo trivial
    | cons e rest =>
        cases run
        obtain ⟨moved, done, split, paid⟩ := recorded
        refine h.wake ⟨moved, done ++ [e], ?_, ?_⟩
        · rw [split, List.append_assoc]
          rfl
        · intro e' mem
          obtain mem | mem := List.mem_append.mp mem
          · exact List.mem_cons_of_mem _ (paid e' mem)
          · rw [List.mem_singleton.mp mem]
            exact List.mem_cons_self

omit [DecidableEq μ] [DecidableEq ν] in
theorem call (h : s.Recorded) (run : s.call t p = some s')
    (plain : ∀ w d k, p.Recorded w d k) : s'.Recorded := by
  simp only [State.call] at run
  cases here : s.phase t <;> rw [here] at run
  case idle =>
    cases run
    exact h.moveTo (plain _ _ _)
  all_goals cases run

/-- Step lemma. -/
theorem step {e : Event τ μ ν} (h : s.Recorded) (inv : WaitQueue.Inv s.waits)
    (run : s.step e = some s') : s'.Recorded := by
  cases e with
  | advance t => exact h.advance inv run
  | _ => exact h.call run (fun _ _ _ => trivial)

/-- Run lemma. -/
theorem run {ok : State τ μ ν → Event τ μ ν → Prop} {events : List (Event τ μ ν)}
    (run : Run (Within ok State.step) initial events s) : s.Recorded := by
  have both := run.invariant (fun s => WaitQueue.Inv s.waits ∧ s.Recorded) ?_ ⟨inv_initial, ?_⟩
  · exact both.2
  · rintro u e u' ⟨inv, h⟩ next
    exact ⟨inv_step inv next, h.step inv next.2⟩
  · exact ⟨fun _ _ mem => (List.not_mem_nil mem).elim, fun _ => trivial⟩

end Recorded

/-- An entry that can be slept on was dequeued by an operation of its object. -/
theorem dequeued_of_token {s : State τ μ ν} (inv : WaitQueue.Inv s.waits) (h : s.Recorded) {t : τ}
    {e : WaitEntry τ μ ν} (pending : (s.phase t).pending = some e) (token : 0 < s.semaphore t) :
    e.thread = t ∧ ∃ op : Operation, op.Fits e.object ∧ (e, op) ∈ s.dequeued := by
  have woken : e ∈ s.woken := inv.woken_of_token pending token
  obtain ⟨⟨e', op⟩, mem, rfl⟩ := List.mem_map.mp (inv.woken e woken)
  exact ⟨(inv.thread t e' pending).1, op, h.fits e' op mem, mem⟩

variable [DecidableEq τ] [DecidableEq μ] [DecidableEq ν] {s : State τ μ ν}

/-- Whoever leaves a sleep does so for its own entry: in `wait` after a signal or broadcast has
dequeued it, in `lock` after an unlock has. -/
def SleepsForOwn (s : State τ μ ν) : Prop :=
  (∀ t v m e s', s.phase t = .waitSleep v m e → s.step (.advance t) = some s' →
    e.thread = t ∧ e.object = .condition v ∧
      ((e, .signal) ∈ s.dequeued ∨ (e, .broadcast) ∈ s.dequeued)) ∧
  ∀ t m caller e s', s.phase t = .lockSleep m caller e → s.step (.advance t) = some s' →
    e.thread = t ∧ e.object = .mutex m ∧ (e, .unlock) ∈ s.dequeued

/-- A signal that finds entries takes the oldest, whose thread is waiting for it, and later adds
one to that thread's semaphore only. -/
def SignalsOldest (s : State τ μ ν) : Prop :=
  (∀ t v e rest, s.phase t = .signalDequeue v → s.waiters (.condition v) = e :: rest →
    (∀ e' ∈ rest, e.ticket < e'.ticket) ∧ (s.phase e.thread).pending = some e ∧
      ∃ s', s.step (.advance t) = some s' ∧ s'.phase t = .signalRelease v (some e) ∧
        s'.waiters (.condition v) = rest ∧ s'.dequeued = (e, .signal) :: s.dequeued) ∧
  ∀ t v e, s.phase t = .signalWake v (some e) → (s.phase e.thread).pending = some e ∧
    ∃ s', s.step (.advance t) = some s' ∧ s'.phase t = .idle ∧
      s'.semaphore = Function.update s.semaphore e.thread 1

/-- A broadcast finds the entries queued when it takes the spinlock; it moves exactly them, and of
them it has woken those that it has not still to wake. -/
def BroadcastsFound (s : State τ μ ν) : Prop :=
  (∀ t v s', s.phase t = .broadcastSpin v → s.step (.advance t) = some s' →
    s'.phase t = .broadcastSpin v ∨
      s'.phase t = .broadcastMove v (s.waiters (.condition v)) []) ∧
  (∀ t v found l, s.phase t = .broadcastMove v found l →
    found = l ++ s.waiters (.condition v)) ∧
  (∀ t v found l, s.phase t = .broadcastRelease v found l → found = l) ∧
  ∀ t v found l, s.phase t = .broadcastWake v found l →
    (∀ e ∈ found, (e, .broadcast) ∈ s.dequeued) ∧ (∀ e ∈ l, e ∉ s.woken) ∧
      ∃ done, found = done ++ l ∧ ∀ e ∈ done, e ∈ s.woken

/-- `wait` returns with the mutex held by its thread alone. -/
def WaitsReturnHolding (s : State τ μ ν) : Prop :=
  ∀ t m v e s', s.phase t = .lockReturn m (.wait v e) → s.step (.advance t) = some s' →
    s'.phase t = .idle ∧ s'.taken m = true ∧ s'.owners m = [t]

theorem sleepsForOwn (inv : WaitQueue.Inv s.waits) (attentive : s.Attentive) (h : s.Recorded) :
    s.SleepsForOwn := by
  constructor
  · intro t v m e s' here run
    have typed := attentive.typed t
    simp only [step, advance, here] at run typed
    obtain ⟨token, -⟩ := Option.ite_none_right_eq_some.mp run
    obtain ⟨thread, op, fits, mem⟩ := dequeued_of_token inv h (by rw [here]; rfl) token
    have object : e.object = .condition v := typed
    rw [object] at fits
    refine ⟨thread, object, ?_⟩
    cases op with
    | unlock => exact fits.elim
    | signal => exact .inl mem
    | broadcast => exact .inr mem
  · intro t m caller e s' here run
    have typed := attentive.typed t
    simp only [step, advance, here] at run typed
    obtain ⟨token, -⟩ := Option.ite_none_right_eq_some.mp run
    obtain ⟨thread, op, fits, mem⟩ := dequeued_of_token inv h (by rw [here]; rfl) token
    have object : e.object = .mutex m := typed
    rw [object] at fits
    refine ⟨thread, object, ?_⟩
    cases op with
    | unlock => exact mem
    | signal => exact fits.elim
    | broadcast => exact fits.elim

theorem signalsOldest (inv : WaitQueue.Inv s.waits) : s.SignalsOldest := by
  constructor
  · intro t v e rest here queue
    have sorted : (s.waiters (.condition v)).Pairwise fun e e' => e.ticket < e'.ticket :=
      inv.sorted (.condition v)
    rw [queue, List.pairwise_cons] at sorted
    have head : e ∈ s.waiters (.condition v) := queue ▸ List.mem_cons_self
    refine ⟨sorted.1, (inv.queued _ e head).2.1, ?_⟩
    simp only [step, advance, here, dequeue, queue]
    refine ⟨_, rfl, ?_, ?_, rfl⟩
    · exact Function.update_self ..
    · exact Function.update_self ..
  · intro t v e here
    have mem : e ∈ (s.waits.agent t).held := by
      show e ∈ (s.phase t).held
      rw [here]
      exact List.mem_singleton_self e
    obtain ⟨pending, -, sleeping⟩ := inv.held t e mem
    have zero : s.semaphore e.thread = 0 := inv.tokens_of_notWoken pending sleeping
    refine ⟨pending, ?_⟩
    simp only [step, advance, here, wakeEntry, wake]
    refine ⟨_, rfl, Function.update_self .., ?_⟩
    show Function.update s.semaphore e.thread (s.semaphore e.thread + 1) = _
    rw [zero]

theorem broadcastsFound (inv : WaitQueue.Inv s.waits) (h : s.Recorded) : s.BroadcastsFound := by
  refine ⟨?_, ?_, ?_, ?_⟩
  · intro t v s' here run
    simp only [step, advance, here] at run
    cases run
    cases spin : s.spin (.condition v) with
    | true => exact .inl (by simp [acquireSpin, spin, here])
    | false => exact .inr (by simp [acquireSpin, spin])
  · intro t v found l here
    have recorded := h.phase t
    rw [here] at recorded
    exact recorded.1
  · intro t v found l here
    have recorded := h.phase t
    rw [here] at recorded
    exact recorded.1
  · intro t v found l here
    have recorded := h.phase t
    rw [here] at recorded
    refine ⟨recorded.1, ?_, recorded.2⟩
    intro e mem
    refine (inv.held t e ?_).2.2
    show e ∈ (s.phase t).held
    rw [here]
    exact mem

theorem Exclusive.waitsReturnHolding (h : s.Exclusive) : s.WaitsReturnHolding := by
  intro t m v e s' here run
  simp only [State.step, State.advance, here] at run
  cases run
  have mine : t ∈ s.owners m := h.owned t m (by rw [here]; rfl)
  refine ⟨Function.update_self .., ?_, h.single m t mine⟩
  show s.taken m = true
  cases isTaken : s.taken m with
  | true => rfl
  | false =>
      rw [h.free m isTaken] at mine
      cases mine

end State

/-- For any number of threads, mutexes and condition variables and any interleaving of lock,
trylock, unlock, wait, signal and broadcast: threads leave their sleeps for their own entries only,
signals release the oldest entry, and broadcasts the entries they have found. If mutexes are only
unlocked by their holders, `wait` returns holding the mutex. -/
theorem condition_wakeups_are_exact {τ μ ν : Type} [DecidableEq τ] [DecidableEq μ] [DecidableEq ν]
    (events : List (Event τ μ ν)) (s : State τ μ ν)
    (run : Run (Within (fun _ _ => True) State.step) State.initial events s) :
    s.SleepsForOwn ∧ s.SignalsOldest ∧ s.BroadcastsFound ∧
      (Run (Within State.HolderUnlocks State.step) State.initial events s →
        s.WaitsReturnHolding) := by
  have inv := State.inv_run run
  have recorded := State.Recorded.run run
  refine ⟨State.sleepsForOwn inv (State.attentive_run run) recorded, State.signalsOldest inv,
    State.broadcastsFound inv recorded, ?_⟩
  intro holders
  exact (State.Exclusive.run holders).waitsReturnHolding

/-- One thread waits, the other signals; the signal has been delivered. -/
def sampleSignal : List (Event Bool Unit Unit) :=
  [[.lock true ()], List.replicate 3 (.advance true),
    [.wait true () ()], List.replicate 8 (.advance true),
    [.signal false ()], List.replicate 4 (.advance false)].flatten

theorem condition_wakeups_are_exact_sample : ∃ s : State Bool Unit Unit,
    Run (Within (fun _ _ => True) State.step) State.initial sampleSignal s ∧
      s.phase true = .waitSleep () () ⟨true, .condition (), 0⟩ ∧
      (∃ s', s.step (.advance true) = some s') ∧
      ((⟨true, .condition (), 0⟩, .signal) ∈ s.dequeued ∨
        (⟨true, .condition (), 0⟩, .broadcast) ∈ s.dequeued) := by
  have done : (simulate (fun _ _ => True) State.step sampleSignal State.initial).map
      (fun s => (s.phase true, (s.step (.advance true)).isSome)) =
      some (.waitSleep () () ⟨true, .condition (), 0⟩, true) := by decide +kernel
  obtain ⟨s, hs, seen⟩ := Option.map_eq_some_iff.mp done
  obtain ⟨sleeping, leaves⟩ := Prod.mk.inj seen
  obtain ⟨s', next⟩ := Option.isSome_iff_exists.mp leaves
  have run := simulate_run hs
  have result := condition_wakeups_are_exact sampleSignal s run
  exact ⟨s, run, sleeping, ⟨s', next⟩, (result.1.1 true () () _ s' sleeping next).2.2⟩

end Monza.Threads
