import Mathlib.Logic.Function.Basic
import Mathlib.Tactic.Simps.Basic

/-!
# Waiting in queues for tokens

Threads wait for each other with first-in first-out queues and one counter of tokens per thread.
A thread that waits puts an entry into the queue of an object and sleeps until its counter
is positive. Another thread takes the entry out and later adds a token to the counter of the
thread the entry names. A queue is only touched by the thread inside the lock of its object.

All objects share the counters, so a sleep could take a token that was meant for another. The
invariant is an account of every entry: as long as its thread has not slept on it, an entry is in
its queue, or held by one thread that took it out, or paid with a token that is still there.
-/

namespace WaitQueue

/-- An entry of the queue of an object; tickets number the entries ever made. -/
structure Entry (τ ω : Type*) where
  thread : τ
  object : ω
  ticket : Nat
  deriving DecidableEq, Repr

/-- What a thread is doing: the lock it is in, the entry it will sleep on, and the entries it has
taken out and not paid. -/
structure Agent (τ ω : Type*) where
  inside : Option ω
  pending : Option (Entry τ ω)
  held : List (Entry τ ω)

structure State (τ ω : Type*) where
  locked : ω → Bool
  queue : ω → List (Entry τ ω)
  tokens : τ → Nat
  next : Nat
  dequeued : List (Entry τ ω)
  woken : List (Entry τ ω)
  agent : τ → Agent τ ω

namespace State

variable {τ ω : Type*} [DecidableEq τ] [DecidableEq ω] (w : State τ ω) (t : τ) (o : ω)

def acquire : State τ ω :=
  { w with
    locked := Function.update w.locked o true
    agent := Function.update w.agent t { w.agent t with inside := some o } }

def release : State τ ω :=
  { w with
    locked := Function.update w.locked o false
    agent := Function.update w.agent t { w.agent t with inside := none } }

/-- The entry that the thread would make now. -/
def entry : Entry τ ω := ⟨t, o, w.next⟩

def enqueue : State τ ω :=
  { w with
    queue := Function.update w.queue o (w.queue o ++ [w.entry t o])
    next := w.next + 1
    agent := Function.update w.agent t { w.agent t with pending := some (w.entry t o) } }

def dequeue (e : Entry τ ω) (rest : List (Entry τ ω)) : State τ ω :=
  { w with
    queue := Function.update w.queue o rest
    dequeued := e :: w.dequeued
    agent := Function.update w.agent t { w.agent t with held := (w.agent t).held ++ [e] } }

def wake (e : Entry τ ω) (rest : List (Entry τ ω)) : State τ ω :=
  { w with
    tokens := Function.update w.tokens e.thread (w.tokens e.thread + 1)
    woken := e :: w.woken
    agent := Function.update w.agent t { w.agent t with held := rest } }

def sleep : State τ ω :=
  { w with
    tokens := Function.update w.tokens t (w.tokens t - 1)
    agent := Function.update w.agent t { w.agent t with pending := none } }

end State

section Steps

variable {τ ω : Type*} [DecidableEq τ] [DecidableEq ω]

inductive Step (w : State τ ω) : State τ ω → Prop
  | acquire {t : τ} {o : ω} (free : w.locked o = false) : Step w (w.acquire t o)
  | release {t : τ} {o : ω} (inside : (w.agent t).inside = some o) : Step w (w.release t o)
  | enqueue {t : τ} {o : ω} (none : (w.agent t).pending = none) : Step w (w.enqueue t o)
  | dequeue {t : τ} {o : ω} {e : Entry τ ω} {rest : List (Entry τ ω)}
      (queue : w.queue o = e :: rest) : Step w (w.dequeue t o e rest)
  | wake {t : τ} {e : Entry τ ω} {rest : List (Entry τ ω)} (held : (w.agent t).held = e :: rest) :
      Step w (w.wake t e rest)
  | sleep {t : τ} {e : Entry τ ω} (pending : (w.agent t).pending = some e)
      (token : 0 < w.tokens t) : Step w (w.sleep t)

end Steps

/-- The account. -/
structure Inv {τ ω : Type*} (w : State τ ω) : Prop where
  locked : ∀ t o, (w.agent t).inside = some o → w.locked o = true
  exclusive : ∀ t u o, (w.agent t).inside = some o → (w.agent u).inside = some o → t = u
  thread : ∀ t e, (w.agent t).pending = some e → e.thread = t ∧ e.ticket < w.next
  sorted : ∀ o, (w.queue o).Pairwise fun e e' => e.ticket < e'.ticket
  queued : ∀ o, ∀ e ∈ w.queue o,
    e.object = o ∧ (w.agent e.thread).pending = some e ∧ e ∉ w.dequeued
  held : ∀ t, ∀ e ∈ (w.agent t).held,
    (w.agent e.thread).pending = some e ∧ e ∈ w.dequeued ∧ e ∉ w.woken
  single : ∀ t u, ∀ e ∈ (w.agent t).held, e ∈ (w.agent u).held → t = u
  nodup : ∀ t, (w.agent t).held.Nodup
  old : ∀ e ∈ w.dequeued, e.ticket < w.next
  woken : ∀ e ∈ w.woken, e ∈ w.dequeued
  paid : ∀ t, 0 < w.tokens t → ∃ e, (w.agent t).pending = some e ∧ e ∈ w.woken
  token : ∀ t e, (w.agent t).pending = some e → e ∈ w.woken → w.tokens t = 1
  placed : ∀ t e, (w.agent t).pending = some e →
    e ∈ w.queue e.object ∨ (∃ u, e ∈ (w.agent u).held) ∨ e ∈ w.woken

section Frame

variable {τ ω : Type*} [DecidableEq τ] {agent : τ → Agent τ ω} (t u : τ) (x : Option ω)
variable (p : Option (Entry τ ω)) (l : List (Entry τ ω))

/-- What an update of one agent keeps it keeps for all. -/
theorem apply_update_eq {β : Type*} (f : Agent τ ω → β) {a : Agent τ ω} (same : f a = f (agent t)) :
    f (Function.update agent t a u) = f (agent u) := by
  rw [Function.apply_update (fun _ => f), same]
  exact congrFun (Function.update_eq_self t fun u => f (agent u)) u

@[simp] theorem pending_update_inside :
    (Function.update agent t { agent t with inside := x } u).pending = (agent u).pending :=
  apply_update_eq t u Agent.pending rfl

@[simp] theorem held_update_inside :
    (Function.update agent t { agent t with inside := x } u).held = (agent u).held :=
  apply_update_eq t u Agent.held rfl

@[simp] theorem inside_update_pending :
    (Function.update agent t { agent t with pending := p } u).inside = (agent u).inside :=
  apply_update_eq t u Agent.inside rfl

@[simp] theorem held_update_pending :
    (Function.update agent t { agent t with pending := p } u).held = (agent u).held :=
  apply_update_eq t u Agent.held rfl

@[simp] theorem inside_update_held :
    (Function.update agent t { agent t with held := l } u).inside = (agent u).inside :=
  apply_update_eq t u Agent.inside rfl

@[simp] theorem pending_update_held :
    (Function.update agent t { agent t with held := l } u).pending = (agent u).pending :=
  apply_update_eq t u Agent.pending rfl

end Frame

namespace Inv

variable {τ ω : Type*} {w : State τ ω} {t : τ} {o : ω} {e : Entry τ ω}

theorem tokens_of_notWoken (h : Inv w) (pending : (w.agent t).pending = some e)
    (sleeping : e ∉ w.woken) : w.tokens t = 0 := by
  by_contra positive
  obtain ⟨e', pending', woken⟩ := h.paid t (Nat.pos_of_ne_zero positive)
  rw [pending] at pending'
  cases pending'
  exact sleeping woken

/-- A thread that can leave its sleep has been woken for the entry it sleeps on. -/
theorem woken_of_token (h : Inv w) (pending : (w.agent t).pending = some e)
    (token : 0 < w.tokens t) : e ∈ w.woken := by
  by_contra sleeping
  rw [h.tokens_of_notWoken pending sleeping] at token
  exact Nat.lt_irrefl 0 token

/-- Entries of a thread that has none pending do not exist. -/
theorem ne_of_none (none : (w.agent t).pending = none)
    (pending : (w.agent e.thread).pending = some e) : e.thread ≠ t := by
  intro same
  rw [same, none] at pending
  cases pending

theorem notWoken_of_queued (h : Inv w) (mem : e ∈ w.queue o) : e ∉ w.woken :=
  fun woken => (h.queued o e mem).2.2 (h.woken e woken)

variable [DecidableEq τ]

/-- The lock of an object changes hands; the account does not see it. -/
theorem move (h : Inv w) {locked : ω → Bool} {x : Option ω}
    (isLocked : ∀ u o, (Function.update w.agent t { w.agent t with inside := x } u).inside =
      some o → locked o = true)
    (exclusive : ∀ o, x = some o → ∀ u, u ≠ t → (w.agent u).inside ≠ some o) :
    Inv { w with
      locked := locked
      agent := Function.update w.agent t { w.agent t with inside := x } } where
  locked := isLocked
  exclusive := by
    intro u v o hu hv
    by_cases ut : u = t
    · by_cases vt : v = t
      · rw [ut, vt]
      · subst ut
        exact absurd (by simpa [vt] using hv) (exclusive o (by simpa using hu) v vt)
    · by_cases vt : v = t
      · subst vt
        exact absurd (by simpa [ut] using hu) (exclusive o (by simpa using hv) u ut)
      · exact h.exclusive u v o (by simpa [ut] using hu) (by simpa [vt] using hv)
  thread := by simpa using h.thread
  sorted := h.sorted
  queued := by simpa using h.queued
  held := by simpa using h.held
  single := by simpa using h.single
  nodup := by simpa using h.nodup
  old := h.old
  woken := h.woken
  paid := by simpa using h.paid
  token := by simpa using h.token
  placed := by simpa using h.placed

variable [DecidableEq ω]

theorem acquire (h : Inv w) (free : w.locked o = false) : Inv (w.acquire t o) := by
  have nobody : ∀ u, (w.agent u).inside ≠ some o := by
    intro u inside
    rw [h.locked u o inside] at free
    cases free
  refine h.move ?_ ?_
  · intro u o' inside
    by_cases same : o' = o
    · simp [same]
    · by_cases here : u = t
      · subst here
        simp [Ne.symm same] at inside
      · simpa [same] using h.locked u o' (by simpa [here] using inside)
  · rintro o' ⟨⟩ u -
    exact nobody u

theorem release (h : Inv w) (inside : (w.agent t).inside = some o) : Inv (w.release t o) := by
  refine h.move ?_ (by simp)
  intro u o' inside'
  by_cases here : u = t
  · subst here
    simp at inside'
  · have inside' : (w.agent u).inside = some o' := by simpa [here] using inside'
    have other : o' ≠ o := by
      rintro rfl
      exact here (h.exclusive u t o' inside' inside)
    simpa [other] using h.locked u o' inside'

/-- Where entries are after a new one has been queued. -/
theorem mem_queue_enqueue (w : State τ ω) (t : τ) (o o' : ω) (e : Entry τ ω) :
    e ∈ (w.enqueue t o).queue o' ↔ e ∈ w.queue o' ∨ o' = o ∧ e = w.entry t o := by
  by_cases same : o' = o
  · subst same
    simp [State.enqueue]
  · simp [State.enqueue, same]

theorem pending_enqueue (w : State τ ω) (t u : τ) (o : ω) (e : Entry τ ω) :
    ((w.enqueue t o).agent u).pending = some e ↔
      u = t ∧ e = w.entry t o ∨ u ≠ t ∧ (w.agent u).pending = some e := by
  by_cases same : u = t
  · subst same
    simp [State.enqueue, eq_comm]
  · simp [State.enqueue, same]

theorem enqueue (h : Inv w) (none : (w.agent t).pending = none) : Inv (w.enqueue t o) := by
  have others : ∀ e, (w.agent e.thread).pending = some e →
      ((w.enqueue t o).agent e.thread).pending = some e := fun e pending =>
    (pending_enqueue ..).mpr (.inr ⟨ne_of_none none pending, pending⟩)
  have new : ∀ e ∈ w.dequeued, e ≠ w.entry t o := by
    rintro e mem rfl
    exact Nat.lt_irrefl _ (h.old _ mem)
  refine ⟨?_, ?_, ?_, ?_, ?_, ?_, ?_, ?_, ?_, h.woken, ?_, ?_, ?_⟩
  · simpa [State.enqueue] using h.locked
  · simpa [State.enqueue] using h.exclusive
  · intro u e pending
    obtain ⟨rfl, rfl⟩ | ⟨-, pending⟩ := (pending_enqueue ..).mp pending
    · exact ⟨rfl, Nat.lt_succ_self _⟩
    · exact ⟨(h.thread u e pending).1, Nat.lt_succ_of_lt (h.thread u e pending).2⟩
  · intro o'
    by_cases same : o' = o
    · subst same
      have below : ∀ e ∈ w.queue o', e.ticket < w.next := fun e mem =>
        (h.thread _ e (h.queued o' e mem).2.1).2
      simpa [State.enqueue, List.pairwise_append] using ⟨h.sorted o', below⟩
    · simpa [State.enqueue, same] using h.sorted o'
  · intro o' e mem
    obtain mem | ⟨rfl, rfl⟩ := (mem_queue_enqueue ..).mp mem
    · obtain ⟨object, pending, fresh⟩ := h.queued o' e mem
      exact ⟨object, others e pending, fresh⟩
    · exact ⟨rfl, (pending_enqueue ..).mpr (.inl ⟨rfl, rfl⟩), fun mem => new _ mem rfl⟩
  · intro u e mem
    obtain ⟨pending, rest⟩ := h.held u e (by simpa [State.enqueue] using mem)
    exact ⟨others e pending, rest⟩
  · simpa [State.enqueue] using h.single
  · simpa [State.enqueue] using h.nodup
  · intro e mem
    exact Nat.lt_succ_of_lt (h.old e mem)
  · intro u token
    obtain ⟨e, pending, woken⟩ := h.paid u token
    have here := (h.thread u e pending).1
    subst here
    exact ⟨e, others e pending, woken⟩
  · intro u e pending woken
    obtain ⟨rfl, rfl⟩ | ⟨-, pending⟩ := (pending_enqueue ..).mp pending
    · exact absurd rfl (new _ (h.woken _ woken))
    · exact h.token u e pending woken
  · intro u e pending
    obtain ⟨rfl, rfl⟩ | ⟨-, pending⟩ := (pending_enqueue ..).mp pending
    · exact .inl ((mem_queue_enqueue ..).mpr (.inr ⟨rfl, rfl⟩))
    · obtain queued | ⟨v, held⟩ | woken := h.placed u e pending
      · exact .inl ((mem_queue_enqueue ..).mpr (.inl queued))
      · exact .inr (.inl ⟨v, by simpa [State.enqueue] using held⟩)
      · exact .inr (.inr woken)

/-- The entry taken out is in no queue any more. -/
theorem mem_queue_dequeue (h : Inv w) {rest : List (Entry τ ω)} (queue : w.queue o = e :: rest)
    (o' : ω) (e' : Entry τ ω) :
    e' ∈ (w.dequeue t o e rest).queue o' ↔ e' ∈ w.queue o' ∧ e' ≠ e := by
  by_cases same : o' = o
  · subst same
    have sorted := h.sorted o'
    rw [queue, List.pairwise_cons] at sorted
    have later : e' ∈ rest → e' ≠ e := by
      rintro mem rfl
      exact Nat.lt_irrefl _ (sorted.1 e' mem)
    constructor
    · intro mem
      have mem : e' ∈ rest := by simpa [State.dequeue] using mem
      exact ⟨by simp [queue, mem], later mem⟩
    · rintro ⟨mem, other⟩
      simpa [State.dequeue, queue, other] using mem
  · have head : e ∈ w.queue o := by simp [queue]
    have other : e' ∈ w.queue o' → e' ≠ e := by
      rintro mem rfl
      exact same ((h.queued o' e' mem).1.symm.trans (h.queued o e' head).1)
    constructor
    · intro mem
      have mem : e' ∈ w.queue o' := by simpa [State.dequeue, same] using mem
      exact ⟨mem, other mem⟩
    · rintro ⟨mem, -⟩
      simpa [State.dequeue, same] using mem

theorem mem_held_dequeue (w : State τ ω) (t u : τ) (o : ω) (e e' : Entry τ ω)
    (rest : List (Entry τ ω)) :
    e' ∈ ((w.dequeue t o e rest).agent u).held ↔ e' ∈ (w.agent u).held ∨ u = t ∧ e' = e := by
  by_cases same : u = t
  · subst same
    simp [State.dequeue]
  · simp [State.dequeue, same]

theorem dequeue (h : Inv w) {rest : List (Entry τ ω)} (queue : w.queue o = e :: rest) :
    Inv (w.dequeue t o e rest) := by
  have head : e ∈ w.queue o := by simp [queue]
  obtain ⟨object, pending, fresh⟩ := h.queued o e head
  have notHeld : ∀ u, e ∉ (w.agent u).held := fun u mem => fresh (h.held u e mem).2.1
  refine ⟨?_, ?_, ?_, ?_, ?_, ?_, ?_, ?_, ?_, ?_, ?_, ?_, ?_⟩
  · simpa [State.dequeue] using h.locked
  · simpa [State.dequeue] using h.exclusive
  · simpa [State.dequeue] using h.thread
  · intro o'
    by_cases same : o' = o
    · subst same
      have sorted := h.sorted o'
      rw [queue, List.pairwise_cons] at sorted
      simpa [State.dequeue] using sorted.2
    · simpa [State.dequeue, same] using h.sorted o'
  · intro o' e' mem
    obtain ⟨mem, other⟩ := (h.mem_queue_dequeue queue o' e').mp mem
    obtain ⟨object, pending, fresh⟩ := h.queued o' e' mem
    exact ⟨object, by simpa [State.dequeue] using pending, by simp [State.dequeue, other, fresh]⟩
  · intro u e' mem
    obtain mem | ⟨rfl, rfl⟩ := (mem_held_dequeue ..).mp mem
    · obtain ⟨pending, dequeued, sleeping⟩ := h.held u e' mem
      exact ⟨by simpa [State.dequeue] using pending, List.mem_cons_of_mem _ dequeued, sleeping⟩
    · exact ⟨by simpa [State.dequeue] using pending, List.mem_cons_self,
        h.notWoken_of_queued head⟩
  · intro u v e' memU memV
    obtain heldU | ⟨hereU, sameU⟩ := (mem_held_dequeue ..).mp memU
    · obtain heldV | ⟨-, rfl⟩ := (mem_held_dequeue ..).mp memV
      · exact h.single u v e' heldU heldV
      · exact absurd heldU (notHeld u)
    · obtain heldV | ⟨hereV, -⟩ := (mem_held_dequeue ..).mp memV
      · exact absurd (sameU ▸ heldV) (notHeld v)
      · rw [hereU, hereV]
  · intro u
    by_cases same : u = t
    · subst same
      simpa [State.dequeue, List.nodup_append] using
        ⟨h.nodup u, fun e' mem => by rintro rfl; exact notHeld u mem⟩
    · simpa [State.dequeue, same] using h.nodup u
  · intro e' mem
    obtain rfl | mem := List.mem_cons.mp mem
    · exact (h.thread _ e' pending).2
    · exact h.old e' mem
  · intro e' mem
    exact List.mem_cons_of_mem _ (h.woken e' mem)
  · simpa [State.dequeue] using h.paid
  · simpa [State.dequeue] using h.token
  · intro u e' pending'
    obtain queued | ⟨v, held⟩ | woken := h.placed u e' (by simpa [State.dequeue] using pending')
    · by_cases same : e' = e
      · exact .inr (.inl ⟨t, (mem_held_dequeue ..).mpr (.inr ⟨rfl, same⟩)⟩)
      · exact .inl ((h.mem_queue_dequeue queue _ e').mpr ⟨queued, same⟩)
    · exact .inr (.inl ⟨v, (mem_held_dequeue ..).mpr (.inl held)⟩)
    · exact .inr (.inr woken)

omit [DecidableEq ω] in
/-- The entry paid is held by nobody any more. -/
theorem mem_held_wake (h : Inv w) {rest : List (Entry τ ω)} (first : (w.agent t).held = e :: rest)
    (u : τ) (e' : Entry τ ω) :
    e' ∈ ((w.wake t e rest).agent u).held ↔ e' ∈ (w.agent u).held ∧ e' ≠ e := by
  by_cases same : u = t
  · subst same
    have nodup := h.nodup u
    rw [first, List.nodup_cons] at nodup
    have later : e' ∈ rest → e' ≠ e := by
      rintro mem rfl
      exact nodup.1 mem
    constructor
    · intro mem
      have mem : e' ∈ rest := by simpa [State.wake] using mem
      exact ⟨by simp [first, mem], later mem⟩
    · rintro ⟨mem, other⟩
      simpa [State.wake, first, other] using mem
  · have head : e ∈ (w.agent t).held := by simp [first]
    have other : e' ∈ (w.agent u).held → e' ≠ e := by
      rintro mem rfl
      exact same (h.single u t e' mem head)
    constructor
    · intro mem
      have mem : e' ∈ (w.agent u).held := by simpa [State.wake, same] using mem
      exact ⟨mem, other mem⟩
    · rintro ⟨mem, -⟩
      simpa [State.wake, same] using mem

omit [DecidableEq ω] in
theorem wake (h : Inv w) {rest : List (Entry τ ω)} (first : (w.agent t).held = e :: rest) :
    Inv (w.wake t e rest) := by
  have head : e ∈ (w.agent t).held := by simp [first]
  obtain ⟨pending, dequeued, sleeping⟩ := h.held t e head
  have zero := h.tokens_of_notWoken pending sleeping
  refine ⟨?_, ?_, ?_, h.sorted, ?_, ?_, ?_, ?_, h.old, ?_, ?_, ?_, ?_⟩
  · simpa [State.wake] using h.locked
  · simpa [State.wake] using h.exclusive
  · simpa [State.wake] using h.thread
  · simpa [State.wake] using h.queued
  · intro u e' mem
    obtain ⟨held, other⟩ := (h.mem_held_wake first u e').mp mem
    obtain ⟨pending, dequeued, sleeping⟩ := h.held u e' held
    exact ⟨by simpa [State.wake] using pending, dequeued, by simp [State.wake, other, sleeping]⟩
  · intro u v e' memU memV
    exact h.single u v e' ((h.mem_held_wake first u e').mp memU).1
      ((h.mem_held_wake first v e').mp memV).1
  · intro u
    by_cases same : u = t
    · subst same
      have nodup := h.nodup u
      rw [first, List.nodup_cons] at nodup
      simpa [State.wake] using nodup.2
    · simpa [State.wake, same] using h.nodup u
  · intro e' mem
    obtain rfl | mem := List.mem_cons.mp mem
    · exact dequeued
    · exact h.woken e' mem
  · intro u token
    by_cases same : u = e.thread
    · subst same
      exact ⟨e, by simpa [State.wake] using pending, List.mem_cons_self⟩
    · obtain ⟨e', pending', woken⟩ := h.paid u (by simpa [State.wake, same] using token)
      exact ⟨e', by simpa [State.wake] using pending', List.mem_cons_of_mem _ woken⟩
  · intro u e' pending' woken
    have waits : (w.agent u).pending = some e' := by simpa [State.wake] using pending'
    by_cases same : u = e.thread
    · subst same
      simp [State.wake, zero]
    · have other : e' ≠ e := by
        rintro rfl
        exact same (h.thread u e' waits).1.symm
      have woken : e' ∈ w.woken := by simpa [State.wake, other] using woken
      simpa [State.wake, same] using h.token u e' waits woken
  · intro u e' pending'
    obtain queued | ⟨v, held⟩ | woken := h.placed u e' (by simpa [State.wake] using pending')
    · exact .inl queued
    · by_cases same : e' = e
      · exact .inr (.inr (by simp [State.wake, same]))
      · exact .inr (.inl ⟨v, (h.mem_held_wake first v e').mpr ⟨held, same⟩⟩)
    · exact .inr (.inr (List.mem_cons_of_mem _ woken))

omit [DecidableEq ω] in
theorem sleep (h : Inv w) (pending : (w.agent t).pending = some e) (token : 0 < w.tokens t) :
    Inv (w.sleep t) := by
  have woken := h.woken_of_token pending token
  have one := h.token t e pending woken
  have others : ∀ e', (w.agent e'.thread).pending = some e' → e' ∉ w.woken →
      ((w.sleep t).agent e'.thread).pending = some e' := by
    intro e' pending' sleeping
    have other : e'.thread ≠ t := by
      intro same
      rw [same, pending] at pending'
      cases pending'
      exact sleeping woken
    simpa [State.sleep, other] using pending'
  have pending_iff : ∀ u e', ((w.sleep t).agent u).pending = some e' →
      u ≠ t ∧ (w.agent u).pending = some e' := by
    intro u e' pending'
    by_cases same : u = t
    · subst same
      simp [State.sleep] at pending'
    · exact ⟨same, by simpa [State.sleep, same] using pending'⟩
  refine ⟨?_, ?_, ?_, h.sorted, ?_, ?_, ?_, ?_, h.old, h.woken, ?_, ?_, ?_⟩
  · simpa [State.sleep] using h.locked
  · simpa [State.sleep] using h.exclusive
  · intro u e' pending'
    exact h.thread u e' (pending_iff u e' pending').2
  · intro o e' mem
    obtain ⟨object, pending', fresh⟩ := h.queued o e' mem
    exact ⟨object, others e' pending' (h.notWoken_of_queued mem), fresh⟩
  · intro u e' mem
    obtain ⟨pending', dequeued, sleeping⟩ := h.held u e' (by simpa [State.sleep] using mem)
    exact ⟨others e' pending' sleeping, dequeued, sleeping⟩
  · simpa [State.sleep] using h.single
  · simpa [State.sleep] using h.nodup
  · intro u token'
    by_cases same : u = t
    · subst same
      simp [State.sleep, one] at token'
    · obtain ⟨e', pending', woken'⟩ := h.paid u (by simpa [State.sleep, same] using token')
      exact ⟨e', by simpa [State.sleep, same] using pending', woken'⟩
  · intro u e' pending' woken'
    obtain ⟨other, pending'⟩ := pending_iff u e' pending'
    simpa [State.sleep, other] using h.token u e' pending' woken'
  · intro u e' pending'
    obtain ⟨-, pending'⟩ := pending_iff u e' pending'
    simpa [State.sleep] using h.placed u e' pending'

/-- Step lemma. -/
theorem step {w' : State τ ω} (h : Inv w) (step : Step w w') : Inv w' := by
  cases step with
  | acquire free => exact h.acquire free
  | release inside => exact h.release inside
  | enqueue none => exact h.enqueue none
  | dequeue queue => exact h.dequeue queue
  | wake held => exact h.wake held
  | sleep pending token => exact h.sleep pending token

end Inv

end WaitQueue
