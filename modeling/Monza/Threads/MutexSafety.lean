import Monza.Threads.Mutex

/-!
# Mutual exclusion and waiters that are not lost

At most one thread is between a successful exchange of `taken` and the store that clears it,
as long as a mutex is only unlocked by its holder. A waiter of a mutex that is free is not
forgotten: whoever cleared `taken` has still to look into the queue, or a thread dequeued
before has still to try again. When that thread finds the mutex taken by another, the other
will have to clear it.
-/

namespace Monza.Threads

open Transition WaitQueue

namespace Phase

variable {τ μ ν : Type}

/-- A mutex that the thread holds at this point. -/
def owned : Phase τ μ ν → Option μ
  | lockReturn m _ => some m
  | unlockSpin m _ => some m
  | unlockStore m _ => some m
  | waitSpin _ m => some m
  | waitEnqueue _ m => some m
  | waitRelease _ m _ => some m
  | _ => none

/-- The mutex that the thread has found taken and will queue at. -/
def enqueuing : Phase τ μ ν → Option μ
  | lockEnqueue m _ => some m
  | _ => none

theorem inside_of_enqueuing {p : Phase τ μ ν} {m : μ} (enqueuing : p.enqueuing = some m) :
    p.inside = some (.mutex m) := by
  cases p
  case lockEnqueue =>
    cases enqueuing
    rfl
  all_goals cases enqueuing

/-- The thread will look into the queue of the mutex, or has been dequeued from it and will try to
lock it again. -/
def Attends (m : μ) (dequeued : List (WaitEntry τ μ ν)) : Phase τ μ ν → Prop
  | unlockDequeue m' _ => m' = m
  | lockSpin m' _ again => m' = m ∧ again = true
  | lockExchange m' _ again => m' = m ∧ again = true
  | lockRelease m' _ e => m' = m ∧ e ∈ dequeued
  | lockSleep m' _ e => m' = m ∧ e ∈ dequeued
  | _ => False

def CallerTyped : Caller τ μ ν → Prop
  | .application => True
  | .wait v e => e.object = .condition v

/-- Local variables name entries of the object they are for. -/
def Typed : Phase τ μ ν → Prop
  | lockRelease m _ e => e.object = .mutex m
  | lockSleep m _ e => e.object = .mutex m
  | unlockSpin _ caller => CallerTyped caller
  | unlockStore _ caller => CallerTyped caller
  | unlockDequeue _ caller => CallerTyped caller
  | unlockRelease _ caller _ => CallerTyped caller
  | unlockWake _ caller _ => CallerTyped caller
  | waitRelease v _ e => e.object = .condition v
  | waitSleep v _ e => e.object = .condition v
  | _ => True

/-- Whoever has an entry pending at a mutex is within `lock`. -/
theorem Typed.attends {p : Phase τ μ ν} (typed : p.Typed) {e : WaitEntry τ μ ν} {m : μ}
    (pending : p.pending = some e) (object : e.object = .mutex m)
    {dequeued : List (WaitEntry τ μ ν)} (mem : e ∈ dequeued) : p.Attends m dequeued := by
  have callers : ∀ {caller : Caller τ μ ν}, CallerTyped caller → callerEntry caller ≠ some e := by
    intro caller typed entry
    cases caller with
    | application => cases entry
    | wait v e' =>
        cases entry
        cases Eq.trans (Eq.symm typed) object
  cases p with
  | lockRelease m' caller e' | lockSleep m' caller e' =>
      cases pending
      exact ⟨Object.mutex.inj (typed.symm.trans object), mem⟩
  | waitRelease v m' e' | waitSleep v m' e' =>
      cases pending
      cases typed.symm.trans object
  | unlockSpin m' caller | unlockStore m' caller | unlockDequeue m' caller
  | unlockRelease m' caller entry | unlockWake m' caller entry =>
      exact absurd pending (callers typed)
  | _ => cases pending

theorem Attends.mono {p : Phase τ μ ν} {m : μ} {l l' : List (WaitEntry τ μ ν)}
    (h : p.Attends m l) (sub : ∀ e ∈ l, e ∈ l') : p.Attends m l' := by
  cases p with
  | lockRelease | lockSleep => exact ⟨h.1, sub _ h.2⟩
  | _ => exact h

end Phase

/-- Ownership, on the variables it is about. -/
structure Owned {τ μ ν : Type} (taken : μ → Bool) (owners : μ → List τ)
    (phase : τ → Phase τ μ ν) : Prop where
  free : ∀ m, taken m = false → owners m = []
  single : ∀ m, ∀ t ∈ owners m, owners m = [t]
  owned : ∀ t m, (phase t).owned = some m → t ∈ owners m

namespace Owned

variable {τ μ ν : Type} {taken : μ → Bool} {owners : μ → List τ} {phase : τ → Phase τ μ ν} {t : τ}
variable {m : μ} [DecidableEq τ]

theorem moveTo (h : Owned taken owners phase) {p : Phase τ μ ν}
    (owned : ∀ m, p.owned = some m → t ∈ owners m) :
    Owned taken owners (Function.update phase t p) where
  free := h.free
  single := h.single
  owned := by
    rw [Function.forall_update_iff phase fun u q => ∀ m, q.owned = some m → u ∈ owners m]
    exact ⟨owned, fun u _ => h.owned u⟩

variable [DecidableEq μ]

theorem lock (h : Owned taken owners phase) (success : taken m = false) {p : Phase τ μ ν}
    (owned : p.owned = none ∨ p.owned = some m) :
    Owned (Function.update taken m true) (Function.update owners m (t :: owners m))
      (Function.update phase t p) := by
  have none := h.free m success
  refine ⟨?_, ?_, ?_⟩
  · intro m' free
    by_cases same : m' = m
    · subst same
      simp at free
    · simpa [same] using h.free m' (by simpa [same] using free)
  · intro m' u mem
    by_cases same : m' = m
    · subst same
      have here : u = t := by simpa [none] using mem
      simp [none, here]
    · simpa [same] using h.single m' u (by simpa [same] using mem)
  · intro u m' ow
    by_cases same : m' = m
    · subst same
      by_cases here : u = t
      · simp [here]
      · have mem := h.owned u m' (by simpa [here] using ow)
        rw [none] at mem
        cases mem
    · by_cases here : u = t
      · subst here
        rw [Function.update_self] at ow
        obtain none | some := owned
        · rw [none] at ow
          cases ow
        · rw [some] at ow
          cases ow
          exact absurd rfl same
      · simpa [same] using h.owned u m' (by simpa [here] using ow)

theorem unlock (h : Owned taken owners phase) (mine : (phase t).owned = some m) {p : Phase τ μ ν}
    (owned : p.owned = none) :
    Owned (Function.update taken m false) (Function.update owners m ((owners m).erase t))
      (Function.update phase t p) := by
  have all := h.single m t (h.owned t m mine)
  have none : (owners m).erase t = [] := by simp [all]
  refine ⟨?_, ?_, ?_⟩
  · intro m' free
    by_cases same : m' = m
    · subst same
      simpa using none
    · simpa [same] using h.free m' (by simpa [same] using free)
  · intro m' u mem
    by_cases same : m' = m
    · subst same
      simp [none] at mem
    · simpa [same] using h.single m' u (by simpa [same] using mem)
  · intro u m' ow
    by_cases here : u = t
    · subst here
      simp [owned] at ow
    · have mem := h.owned u m' (by simpa [here] using ow)
      by_cases same : m' = m
      · subst same
        rw [all, List.mem_singleton] at mem
        exact absurd mem here
      · simpa [same] using mem

end Owned

/-- Attention to waiters, on the variables it is about. -/
structure Attended {τ μ ν : Type} (taken : μ → Bool)
    (waiters : Object μ ν → List (WaitEntry τ μ ν)) (dequeued : List (WaitEntry τ μ ν × Operation))
    (phase : τ → Phase τ μ ν) : Prop where
  typed : ∀ t, (phase t).Typed
  enqueuing : ∀ t m, (phase t).enqueuing = some m → taken m = true
  attended : ∀ m, waiters (.mutex m) ≠ [] →
    taken m = true ∨ ∃ t, (phase t).Attends m (dequeued.map Prod.fst)

namespace Attended

variable {τ μ ν : Type} {taken : μ → Bool} {waiters : Object μ ν → List (WaitEntry τ μ ν)}
variable {dequeued : List (WaitEntry τ μ ν × Operation)} {phase : τ → Phase τ μ ν} {t : τ}
variable {p : Phase τ μ ν} {m : μ}

/-- A lock makes every mutex attended. -/
theorem take [DecidableEq μ] (h : Attended taken waiters dequeued phase) :
    Attended (Function.update taken m true) waiters dequeued phase := by
  have keep : ∀ m', taken m' = true → Function.update taken m true m' = true := by
    intro m' isTaken
    by_cases same : m' = m
    · simp [same]
    · simpa [same] using isTaken
  refine ⟨h.typed, fun u m' here => keep m' (h.enqueuing u m' here), ?_⟩
  intro m' waiting
  exact (h.attended m' waiting).imp_left (keep m')

variable [DecidableEq τ]

theorem typed_update (h : Attended taken waiters dequeued phase) (typed : p.Typed) :
    ∀ u, (Function.update phase t p u).Typed := by
  rw [Function.forall_update_iff phase fun _ q => q.Typed]
  exact ⟨typed, fun u _ => h.typed u⟩

/-- A step that touches neither `taken` nor the queues. -/
theorem moveTo (h : Attended taken waiters dequeued phase) (typed : p.Typed)
    (enqueuing : ∀ m, p.enqueuing = some m → taken m = true)
    (attends : ∀ m, (phase t).Attends m (dequeued.map Prod.fst) →
      p.Attends m (dequeued.map Prod.fst) ∨ taken m = true ∨ waiters (.mutex m) = []) :
    Attended taken waiters dequeued (Function.update phase t p) where
  typed := h.typed_update typed
  enqueuing := by
    rw [Function.forall_update_iff phase fun _ q => ∀ m, q.enqueuing = some m → taken m = true]
    exact ⟨enqueuing, fun u _ => h.enqueuing u⟩
  attended := by
    intro m waiting
    obtain isTaken | ⟨u, hu⟩ := h.attended m waiting
    · exact .inl isTaken
    · by_cases same : u = t
      · subst same
        obtain after | isTaken | empty := attends m hu
        · exact .inr ⟨u, by simpa using after⟩
        · exact .inl isTaken
        · exact absurd empty waiting
      · exact .inr ⟨u, by simpa [same] using hu⟩

/-- Who clears `taken` attends to the queue, and nobody else is inside the spinlock. -/
theorem clear [DecidableEq μ] (h : Attended taken waiters dequeued phase) {caller : Caller τ μ ν}
    (here : phase t = .unlockStore m caller)
    (alone : ∀ u, u ≠ t → (phase u).inside ≠ some (.mutex m)) :
    Attended (Function.update taken m false) waiters dequeued
      (Function.update phase t (.unlockDequeue m caller)) := by
  have typed := h.typed t
  rw [here] at typed
  refine ⟨h.typed_update typed, ?_, ?_⟩
  · intro u m' enqueuing
    by_cases same : u = t
    · subst same
      simp [Phase.enqueuing] at enqueuing
    · rw [Function.update_of_ne same] at enqueuing
      have other : m' ≠ m := by
        rintro rfl
        exact alone u same (Phase.inside_of_enqueuing enqueuing)
      simpa [other] using h.enqueuing u m' enqueuing
  · intro m' waiting
    by_cases same : m' = m
    · exact .inr ⟨t, by simp [Phase.Attends, same]⟩
    · obtain isTaken | ⟨u, hu⟩ := h.attended m' waiting
      · exact .inl (by simpa [same] using isTaken)
      · have other : u ≠ t := by
          rintro rfl
          rw [here] at hu
          exact hu
        exact .inr ⟨u, by simpa [other] using hu⟩

/-- A new entry: the thread has found the mutex taken and is still inside the spinlock. -/
theorem enqueue [DecidableEq μ] [DecidableEq ν] (h : Attended taken waiters dequeued phase)
    {o : Object μ ν} {l : List (WaitEntry τ μ ν)} (typed : p.Typed)
    (mutex : ∀ m, o = .mutex m → taken m = true)
    (attends : ∀ m, ¬ (phase t).Attends m (dequeued.map Prod.fst))
    (enqueuing : p.enqueuing = none) :
    Attended taken (Function.update waiters o l) dequeued (Function.update phase t p) := by
  have moved := h.moveTo (t := t) typed (by simp [enqueuing])
    (fun m before => absurd before (attends m))
  refine ⟨moved.typed, moved.enqueuing, ?_⟩
  intro m waiting
  by_cases same : o = .mutex m
  · exact .inl (mutex m same)
  · exact moved.attended m (by simpa [Ne.symm same] using waiting)

/-- A dequeued entry: its thread has to try again. -/
theorem dequeue [DecidableEq μ] [DecidableEq ν] (h : Attended taken waiters dequeued phase)
    {o : Object μ ν} {e : WaitEntry τ μ ν} {rest : List (WaitEntry τ μ ν)} {by' : Operation}
    (object : e.object = o)
    (pending : (phase e.thread).pending = some e) (typed : p.Typed)
    (enqueuing : p.enqueuing = none)
    (attends : ∀ m, o ≠ .mutex m → ¬ (phase t).Attends m (dequeued.map Prod.fst))
    (waits : p.pending = (phase t).pending) :
    Attended taken (Function.update waiters o rest) ((e, by') :: dequeued)
      (Function.update phase t p) := by
  have typed' : ∀ u, (Function.update phase t p u).Typed := h.typed_update typed
  refine ⟨typed', ?_, ?_⟩
  · rw [Function.forall_update_iff phase fun _ q => ∀ m, q.enqueuing = some m → taken m = true]
    exact ⟨by simp [enqueuing], fun u _ => h.enqueuing u⟩
  · intro m waiting
    by_cases same : o = .mutex m
    · have pending' : (Function.update phase t p e.thread).pending = some e := by
        by_cases here : e.thread = t
        · rw [here] at pending ⊢
          rw [Function.update_self, waits, pending]
        · rw [Function.update_of_ne here, pending]
      exact .inr ⟨e.thread, (typed' e.thread).attends pending' (object.trans same)
        List.mem_cons_self⟩
    · obtain isTaken | ⟨u, hu⟩ := h.attended m (by simpa [Ne.symm same] using waiting)
      · exact .inl isTaken
      · have other : u ≠ t := by
          rintro rfl
          exact attends m same hu
        refine .inr ⟨u, ?_⟩
        rw [Function.update_of_ne other]
        exact hu.mono fun e' mem => List.mem_cons_of_mem _ mem

end Attended

namespace State

variable {τ μ ν : Type}

def Attentive (s : State τ μ ν) : Prop := Attended s.taken s.waiters s.dequeued s.phase

variable [DecidableEq τ] {s s' : State τ μ ν} {t : τ} {p : Phase τ μ ν} {o : Object μ ν}

namespace Attentive

/-- A step of a thread that goes on attending to what it attended to. -/
theorem moveTo (h : s.Attentive) (typed : p.Typed) (enqueuing : p.enqueuing = none)
    (attends : ∀ m l, (s.phase t).Attends m l → p.Attends m l) : (s.moveTo t p).Attentive :=
  Attended.moveTo h typed (by simp [enqueuing]) (fun m before => .inl (attends m _ before))

variable [DecidableEq μ]

theorem exchange (h : s.Attentive) {m : μ} {q : Phase τ μ ν} (typed : p.Typed) (typed' : q.Typed)
    (enqueuing : p.enqueuing = none)
    (enqueuing' : q.enqueuing = none ∨ q.enqueuing = some m)
    (attends : ∀ m' l, (s.phase t).Attends m' l → m' = m) :
    (s.exchange t m p q).Attentive := by
  rw [State.exchange]
  split
  next isTaken =>
    refine Attended.moveTo h typed' ?_ ?_
    · intro m' here
      obtain none | some := enqueuing'
      · rw [none] at here
        cases here
      · rw [some] at here
        cases here
        exact isTaken
    · intro m' before
      rw [attends m' _ before]
      exact .inr (.inl isTaken)
  next =>
    refine Attended.moveTo (Attended.take h) typed (by simp [enqueuing]) ?_
    · intro m' before
      rw [attends m' _ before]
      exact .inr (.inl (Function.update_self ..))

variable [DecidableEq ν]

theorem acquireSpin (h : s.Attentive) (typed : p.Typed) (enqueuing : p.enqueuing = none)
    (attends : ∀ m l, (s.phase t).Attends m l → p.Attends m l) :
    (s.acquireSpin t o p).Attentive := by
  cases spin : s.spin o with
  | true =>
      have same : Function.update s.phase t (s.phase t) = s.phase := Function.update_eq_self ..
      simp only [State.acquireSpin, spin, if_true, Attentive, State.moveTo, same]
      exact h
  | false =>
      simp only [State.acquireSpin, spin, Attentive]
      exact moveTo h typed enqueuing attends

theorem dequeue (h : s.Attentive) (inv : WaitQueue.Inv s.waits) {by' : Operation}
    {next : Option (WaitEntry τ μ ν) → Phase τ μ ν} (typed : ∀ entry, (next entry).Typed)
    (enqueuing : ∀ entry, (next entry).enqueuing = none)
    (attends : ∀ m l, (s.phase t).Attends m l → o = .mutex m)
    (waits : ∀ entry, (next entry).pending = (s.phase t).pending) :
    (s.dequeue t o by' next).Attentive := by
  cases queue : s.waiters o with
  | nil =>
      simp only [State.dequeue, queue]
      refine Attended.moveTo h (typed none) (by simp [enqueuing]) ?_
      intro m before
      rw [← attends m _ before]
      exact .inr (.inr queue)
  | cons e rest =>
      simp only [State.dequeue, queue]
      obtain ⟨object, pending, -⟩ := inv.queued o e (by
        show e ∈ s.waiters o
        rw [queue]
        exact List.mem_cons_self)
      exact Attended.dequeue h object pending (typed _) (enqueuing _)
        (fun m other before => other (attends m _ before)) (waits _)

theorem advance (h : s.Attentive) (inv : WaitQueue.Inv s.waits) (run : s.advance t = some s') :
    s'.Attentive := by
  have typed := h.typed t
  simp only [State.advance] at run
  cases here : s.phase t <;> rw [here] at run typed
  case idle => cases run
  case lockSpin =>
    cases run
    exact h.acquireSpin trivial rfl (by rw [here]; exact fun _ _ => id)
  case unlockSpin =>
    cases run
    exact h.acquireSpin typed rfl (by rw [here]; exact fun _ _ => False.elim)
  case waitSpin | signalSpin | broadcastSpin =>
    cases run
    exact h.acquireSpin trivial rfl (by rw [here]; exact fun _ _ => False.elim)
  case lockReturn | signalRelease | broadcastRelease =>
    cases run
    exact moveTo h trivial rfl (by rw [here]; exact fun _ _ => False.elim)
  case lockRelease =>
    cases run
    exact moveTo h typed rfl (by rw [here]; exact fun _ _ => id)
  case unlockRelease | waitRelease =>
    cases run
    exact moveTo h typed rfl (by rw [here]; exact fun _ _ => False.elim)
  case lockExchange m caller again =>
    cases run
    refine h.exchange trivial trivial rfl (.inr rfl) ?_
    rw [here]
    exact fun _ _ before => before.1.symm
  case tryExchange =>
    cases run
    exact h.exchange trivial trivial rfl (.inl rfl) (by rw [here]; exact fun _ _ => False.elim)
  case lockEnqueue m caller =>
    cases run
    refine Attended.enqueue h rfl ?_ (by rw [here]; exact fun _ => id) rfl
    rintro m' ⟨⟩
    exact h.enqueuing t m (by rw [here]; rfl)
  case waitEnqueue =>
    cases run
    refine Attended.enqueue h rfl ?_ (by rw [here]; exact fun _ => id) rfl
    rintro m' ⟨⟩
  case lockSleep =>
    obtain ⟨-, ⟨⟩⟩ := Option.ite_none_right_eq_some.mp run
    exact moveTo h trivial rfl (by rw [here]; exact fun _ _ before => ⟨before.1, rfl⟩)
  case waitSleep =>
    obtain ⟨-, ⟨⟩⟩ := Option.ite_none_right_eq_some.mp run
    exact moveTo h trivial rfl (by rw [here]; exact fun _ _ => False.elim)
  case unlockStore m caller =>
    cases run
    refine Attended.clear h here ?_
    intro u other inside
    exact other (inv.exclusive u t (.mutex m) inside (by
      show (s.phase t).inside = _
      rw [here]
      rfl))
  case unlockDequeue m caller =>
    cases run
    refine h.dequeue inv (fun _ => typed) (fun _ => rfl) ?_ (fun _ => by rw [here]; rfl)
    rw [here]
    rintro m' _ rfl
    rfl
  case signalDequeue =>
    cases run
    exact h.dequeue inv (fun _ => trivial) (fun _ => rfl)
      (by rw [here]; exact fun _ _ => False.elim) (fun _ => by rw [here]; rfl)
  case broadcastMove =>
    cases run
    refine h.dequeue inv ?_ ?_ (by rw [here]; exact fun _ _ => False.elim) ?_
    · intro entry
      cases entry <;> trivial
    · intro entry
      cases entry <;> rfl
    · intro entry
      rw [here]
      cases entry <;> rfl
  case unlockWake m caller entry =>
    cases caller <;> cases entry <;> cases run <;>
      exact moveTo h typed rfl (by rw [here]; exact fun _ _ => False.elim)
  case signalWake v entry =>
    cases entry <;> cases run <;>
      exact moveTo h trivial rfl (by rw [here]; exact fun _ _ => False.elim)
  case broadcastWake v found localQueue =>
    cases localQueue <;> cases run <;>
      exact moveTo h trivial rfl (by rw [here]; exact fun _ _ => False.elim)

omit [DecidableEq μ] [DecidableEq ν] in
theorem call (h : s.Attentive) (run : s.call t p = some s') (typed : p.Typed)
    (enqueuing : p.enqueuing = none) : s'.Attentive := by
  simp only [State.call] at run
  cases here : s.phase t <;> rw [here] at run
  case idle =>
    cases run
    exact h.moveTo typed enqueuing (by rw [here]; exact fun _ _ => False.elim)
  all_goals cases run

/-- Step lemma. -/
theorem step {e : Event τ μ ν} (h : s.Attentive) (inv : WaitQueue.Inv s.waits)
    (run : s.step e = some s') : s'.Attentive := by
  cases e with
  | advance t => exact h.advance inv run
  | _ => exact h.call run trivial rfl

end Attentive

/-- Run lemma. -/
theorem attentive_run {ok : State τ μ ν → Event τ μ ν → Prop} [DecidableEq μ] [DecidableEq ν]
    {events : List (Event τ μ ν)} (run : Run (Within ok step) initial events s) :
    s.Attentive := by
  have both := run.invariant (fun s => WaitQueue.Inv s.waits ∧ s.Attentive) ?_ ⟨inv_initial, ?_⟩
  · exact both.2
  · rintro u e u' ⟨inv, h⟩ next
    exact ⟨inv_step inv next, h.step inv next.2⟩
  · refine ⟨fun _ => trivial, ?_, fun m waiting => absurd rfl waiting⟩
    rintro t m ⟨⟩

/-- Ownership in a state. -/
def Exclusive (s : State τ μ ν) : Prop := Owned s.taken s.owners s.phase

namespace Exclusive

omit [DecidableEq τ] in
/-- At most one thread is between a successful lock and its unlock. -/
theorem eq_of_mem (h : s.Exclusive) {m : μ} {u : τ} (ht : t ∈ s.owners m) (hu : u ∈ s.owners m) :
    t = u := by
  rw [h.single m u hu] at ht
  exact List.mem_singleton.mp ht

omit [DecidableEq τ] in
theorem owned_of_owned (h : s.Exclusive) (owned : p.owned = none ∨ p.owned = (s.phase t).owned)
    (m : μ) (mine : p.owned = some m) : t ∈ s.owners m := by
  obtain none | same := owned
  · rw [none] at mine
    cases mine
  · exact h.owned t m (same ▸ mine)

theorem moveTo (h : s.Exclusive) (owned : p.owned = none ∨ p.owned = (s.phase t).owned) :
    (s.moveTo t p).Exclusive :=
  Owned.moveTo h (h.owned_of_owned owned)

variable [DecidableEq μ]

theorem exchange (h : s.Exclusive) {m : μ} {q : Phase τ μ ν}
    (success : p.owned = none ∨ p.owned = some m) (failure : q.owned = none) :
    (s.exchange t m p q).Exclusive := by
  rw [State.exchange]
  split
  next => exact h.moveTo (.inl failure)
  next free => exact Owned.lock h (Bool.eq_false_iff.mpr free) success

variable [DecidableEq ν]

theorem acquireSpin (h : s.Exclusive)
    (owned : p.owned = none ∨ p.owned = (s.phase t).owned) : (s.acquireSpin t o p).Exclusive := by
  refine Owned.moveTo h ?_
  cases spin : s.spin o with
  | true => simpa using h.owned t
  | false => simpa using h.owned_of_owned owned

theorem dequeue (h : s.Exclusive) {by' : Operation}
    {next : Option (WaitEntry τ μ ν) → Phase τ μ ν} (owned : ∀ entry, (next entry).owned = none) :
    (s.dequeue t o by' next).Exclusive := by
  rw [State.dequeue]
  split
  next => exact h.moveTo (.inl (owned none))
  next => exact moveTo h (.inl (owned _))

theorem advance (h : s.Exclusive) (run : s.advance t = some s') : s'.Exclusive := by
  simp only [State.advance] at run
  cases here : s.phase t <;> rw [here] at run
  case idle => cases run
  case lockSpin | signalSpin | broadcastSpin =>
    cases run
    exact h.acquireSpin (.inl rfl)
  case unlockSpin | waitSpin =>
    cases run
    exact h.acquireSpin (.inr (by rw [here]; rfl))
  case lockReturn | lockRelease | unlockRelease | signalRelease | broadcastRelease =>
    cases run
    exact moveTo h (.inl rfl)
  case waitRelease =>
    cases run
    exact moveTo h (.inr (by rw [here]; rfl))
  case lockExchange =>
    cases run
    exact h.exchange (.inr rfl) rfl
  case tryExchange =>
    cases run
    exact h.exchange (.inl rfl) rfl
  case lockEnqueue =>
    cases run
    exact moveTo h (.inl rfl)
  case waitEnqueue =>
    cases run
    exact moveTo h (.inr (by rw [here]; rfl))
  case lockSleep | waitSleep =>
    obtain ⟨-, ⟨⟩⟩ := Option.ite_none_right_eq_some.mp run
    exact moveTo h (.inl rfl)
  case unlockStore m caller =>
    cases run
    exact Owned.unlock h (by rw [here]; rfl) rfl
  case unlockDequeue | signalDequeue =>
    cases run
    exact h.dequeue fun _ => rfl
  case broadcastMove =>
    cases run
    refine h.dequeue ?_
    intro entry
    cases entry <;> rfl
  case unlockWake m caller entry =>
    cases caller <;> cases entry <;> cases run <;> exact moveTo h (.inl rfl)
  case signalWake v entry =>
    cases entry <;> cases run <;> exact moveTo h (.inl rfl)
  case broadcastWake v found localQueue =>
    cases localQueue <;> cases run <;> exact moveTo h (.inl rfl)

omit [DecidableEq μ] [DecidableEq ν] in
theorem call (h : s.Exclusive) (run : s.call t p = some s')
    (owned : ∀ m, p.owned = some m → t ∈ s.owners m) : s'.Exclusive := by
  simp only [State.call] at run
  cases here : s.phase t <;> rw [here] at run
  case idle =>
    cases run
    exact Owned.moveTo h owned
  all_goals cases run

/-- Step lemma. -/
theorem step {e : Event τ μ ν} (h : s.Exclusive) (holder : s.HolderUnlocks e)
    (run : s.step e = some s') : s'.Exclusive := by
  cases e with
  | lock | trylock | signal | broadcast =>
      refine h.call run ?_
      rintro _ ⟨⟩
  | unlock t m | wait t v m =>
      refine h.call run ?_
      rintro _ ⟨⟩
      exact holder
  | advance t => exact h.advance run

/-- Run lemma. -/
theorem run {events : List (Event τ μ ν)}
    (run : Run (Within HolderUnlocks State.step) initial events s) : s.Exclusive := by
  refine run.invariant Exclusive (fun _ _ _ h next => h.step next.1 next.2) ?_
  refine ⟨fun _ _ => rfl, ?_, ?_⟩
  · rintro m t ⟨⟩
  · rintro t m ⟨⟩

end Exclusive

end State

/-- For any number of threads, mutexes and condition variables and any interleaving in which only
holders unlock: at most one thread is between a successful `lock` or `trylock` and its `unlock`, and
when a mutex is free while its queue is not empty, some `unlock` is between clearing `taken` and
its dequeue or some dequeued thread has not tried again. -/
theorem mutex_exclusive_no_lost_waiter {τ μ ν : Type} [DecidableEq τ] [DecidableEq μ]
    [DecidableEq ν] (events : List (Event τ μ ν)) (s : State τ μ ν)
    (run : Run (Within State.HolderUnlocks State.step) State.initial events s) :
    (∀ m, ∀ t ∈ s.owners m, ∀ u ∈ s.owners m, t = u) ∧
      ∀ m, s.waiters (.mutex m) ≠ [] → s.taken m = false →
        ∃ t, (s.phase t).Attends m (s.dequeued.map Prod.fst) := by
  refine ⟨fun m t ht u hu => (State.Exclusive.run run).eq_of_mem ht hu, ?_⟩
  intro m waiting free
  obtain isTaken | attended := (State.attentive_run run).attended m waiting
  · rw [free] at isTaken
    cases isTaken
  · exact attended

/-- One thread holds the mutex, the other sleeps on it, and the holder has cleared `taken`. -/
def sampleContention : List (Event Bool Unit Unit) :=
  [[.lock false ()], List.replicate 3 (.advance false),
    [.lock true ()], List.replicate 4 (.advance true),
    [.unlock false ()], List.replicate 2 (.advance false)].flatten

theorem mutex_exclusive_no_lost_waiter_sample : ∃ s : State Bool Unit Unit,
    Run (Within State.HolderUnlocks State.step) State.initial sampleContention s ∧
      s.waiters (.mutex ()) = [⟨true, .mutex (), 0⟩] ∧ s.taken () = false ∧
      ∃ t, (s.phase t).Attends () (s.dequeued.map Prod.fst) := by
  have done : (simulate State.HolderUnlocks State.step sampleContention State.initial).map
      (fun s => (s.waiters (.mutex ()), s.taken ())) =
      some ([⟨true, .mutex (), 0⟩], false) := by decide +kernel
  obtain ⟨s, hs, seen⟩ := Option.map_eq_some_iff.mp done
  obtain ⟨waiters, free⟩ := Prod.mk.inj seen
  have run := simulate_run hs
  have result := mutex_exclusive_no_lost_waiter sampleContention s run
  exact ⟨s, run, waiters, free, result.2 () (by rw [waiters]; exact List.cons_ne_nil _ _) free⟩

end Monza.Threads
