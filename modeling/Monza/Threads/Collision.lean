import Monza.Threads.Reservation

/-!
# Concurrent calls of `add_thread`

The calls are numbered, and a ledger is kept along a run: which call has stored the function that
stands in the context of a core and which that the core has read, whether the words of a context
have been read since they were stored, and whether one was overwritten that had not been read. The
core itself overwrites the code pointer, with null. When calls choose their cores carefully, nothing
is overwritten, and two calls that have returned the same id are not both unfinished.
-/

namespace Monza.Handover

open Transition

/-- What calls have done so far. The initializer of a core is not stored by a call. -/
structure Ledger (φ α : Type) where
  state : State φ α
  made : Nat
  call : Nat → Nat
  stored : Nat → Option Nat
  taken : Nat → Option Nat
  codeUnread : Nat → Bool
  argUnread : Nat → Bool
  overwritten : Bool
  returned : List (Nat × Nat)
  finished : List Nat

namespace Ledger

variable {φ α : Type} (P : Platform φ α)

def initial : Ledger φ α where
  state := .initial P
  made := 0
  call := fun _ => 0
  stored := fun _ => none
  taken := fun _ => none
  codeUnread := fun _ => false
  argUnread := fun _ => false
  overwritten := false
  returned := []
  finished := []

variable (l : Ledger φ α)

def writeArg (c : Nat) : Ledger φ α :=
  { l with
    argUnread := Function.update l.argUnread c true
    overwritten := l.overwritten || l.argUnread c }

def writeCode (c : Nat) (call : Option Nat) : Ledger φ α :=
  { l with
    stored := Function.update l.stored c call
    codeUnread := Function.update l.codeUnread c true
    overwritten := l.overwritten || l.codeUnread c }

def addReturned (w id : Nat) : Ledger φ α :=
  { l with returned := l.returned ++ [(l.call w, id)] }

/-- What the next step of a thread is about to do. -/
def recordThread (w : Nat) : Ledger φ α :=
  match l.state.thread w with
  | .initArg i => l.writeArg i
  | .initCode i => l.writeCode i none
  | .addArg i _ _ => l.writeArg i
  | .addCode i _ _ => l.writeCode i (some (l.call w))
  | .addLoop i _ _ => if i < P.cores then l else l.addReturned w 0
  | .addWait i _ _ =>
      if (l.state.context i).codePtr.isSome then l else l.addReturned w (coreToThread i)
  | _ => l

/-- What the next step of a core is about to do. -/
def recordCore (c : Nat) : Ledger φ α :=
  match l.state.core c with
  | .loop =>
      if (l.state.context c).codePtr.isSome then
        { l with
          taken := Function.update l.taken c (l.stored c)
          codeUnread := Function.update l.codeUnread c false }
      else l
  | .loadArg _ => { l with argUnread := Function.update l.argUnread c false }
  | .clearCode _ _ =>
      { l with
        codeUnread := Function.update l.codeUnread c false
        overwritten := l.overwritten || l.codeUnread c }
  | .running _ _ => { l with finished := l.finished ++ (l.taken c).toList }
  | _ => l

def record : Event φ α → Ledger φ α
  | .add w _ _ => { l with made := l.made + 1, call := Function.update l.call w l.made }
  | .exit => l
  | .thread w => l.recordThread P w
  | .core c => l.recordCore c

def step (l : Ledger φ α) (e : Event φ α) : Option (Ledger φ α) :=
  (l.state.step P e).map fun s => { l.record P e with state := s }

def Careful (l : Ledger φ α) (e : Event φ α) : Prop := l.state.Careful P e

instance (l : Ledger φ α) (e : Event φ α) : Decidable (l.Careful P e) :=
  inferInstanceAs (Decidable (l.state.Careful P e))

/-- No two calls that have returned the same id are both unfinished, and nothing that was stored
has been overwritten before the core has read it. -/
structure NoCollision (l : Ledger φ α) : Prop where
  distinct : ∀ k k' c, (k, coreToThread c) ∈ l.returned → (k', coreToThread c) ∈ l.returned →
    k ∉ l.finished → k' ∉ l.finished → k = k'
  intact : l.overwritten = false

end Ledger

namespace Core

variable {φ α : Type}

/-- The function is in the registers, and still in the context. -/
def holds : Core φ α → Bool
  | loadArg _ => true
  | increment _ _ => true
  | clearDone _ _ => true
  | clearCode _ _ => true
  | _ => false

/-- The argument is in the registers, and its function still in the context. -/
def holdsArg : Core φ α → Bool
  | increment _ _ => true
  | clearDone _ _ => true
  | clearCode _ _ => true
  | _ => false

/-- The function is in the registers. -/
def busy : Core φ α → Bool
  | call _ _ => true
  | running _ _ => true
  | p => p.holds

end Core

namespace Thread

variable {φ α : Type}

/-- The thread has stored the argument for the core, and not the function. -/
def storedArg (c : Nat) : Thread φ α → Bool
  | initCode i => i = c
  | addCode i _ _ => i = c
  | _ => false

theorem relies_of_storedArg {p : Thread φ α} {c : Nat} (stored : p.storedArg c = true) :
    p.Relies c := by
  cases p
  case initCode i => exact Nat.le_of_eq (of_decide_eq_true stored)
  case addCode i f a =>
    rw [storedArg, decide_eq_true_eq] at stored
    exact stored
  all_goals cases stored

def waitsAt (c : Nat) : Thread φ α → Bool
  | addWait i _ _ => i = c
  | addPing i _ _ => i = c
  | _ => false

end Thread

namespace Ledger

variable {φ α : Type} {P : Platform φ α}

/-- The call whose function the core has read, or which stands in its context. -/
def holder (l : Ledger φ α) (c : Nat) : Option Nat :=
  if (l.state.core c).busy then l.taken c
  else if (l.state.context c).codePtr.isSome then l.stored c
  else none

/-- The call waits for the core, or has returned its id. -/
def Assigned (l : Ledger φ α) (k c : Nat) : Prop :=
  (∃ u, (l.state.thread u).waitsAt c = true ∧ l.call u = k) ∨ (k, coreToThread c) ∈ l.returned

structure Recorded (l : Ledger φ α) : Prop where
  code : ∀ c, l.codeUnread c = true ↔
    (l.state.context c).codePtr.isSome = true ∧ (l.state.core c).holds = false
  arg : ∀ c, l.argUnread c = true →
    (l.state.context c).codePtr.isSome = true ∧ (l.state.core c).holdsArg = false ∨
      ∃ u, (l.state.thread u).storedArg c = true
  assigned : ∀ k c, l.Assigned k c → k ∈ l.finished ∨ l.holder c = some k
  intact : l.overwritten = false

theorem Recorded.noCollision {l : Ledger φ α} (h : l.Recorded) : l.NoCollision where
  distinct k k' c returned returned' unfinished unfinished' := by
    have holds := (h.assigned k c (.inr returned)).resolve_left unfinished
    have holds' := (h.assigned k' c (.inr returned')).resolve_left unfinished'
    exact Option.some.inj (holds.symm.trans holds')
  intact := h.intact

variable {l l' : Ledger φ α} {c w : Nat} {p : Thread φ α}

/-- The core as the ledger sees it. -/
structure SameEntry (l l' : Ledger φ α) (c : Nat) : Prop where
  busy : (l'.state.core c).busy = (l.state.core c).busy
  holds : (l'.state.core c).holds = (l.state.core c).holds
  holdsArg : (l'.state.core c).holdsArg = (l.state.core c).holdsArg
  code : (l'.state.context c).codePtr = (l.state.context c).codePtr
  stored : l'.stored c = l.stored c
  taken : l'.taken c = l.taken c
  codeUnread : l'.codeUnread c = l.codeUnread c
  argUnread : l'.argUnread c = l.argUnread c

theorem SameEntry.of_core (core : l'.state.core c = l.state.core c)
    (code : (l'.state.context c).codePtr = (l.state.context c).codePtr)
    (stored : l'.stored c = l.stored c) (taken : l'.taken c = l.taken c)
    (codeUnread : l'.codeUnread c = l.codeUnread c) (argUnread : l'.argUnread c = l.argUnread c) :
    SameEntry l l' c :=
  ⟨congrArg _ core, congrArg _ core, congrArg _ core, code, stored, taken, codeUnread, argUnread⟩

theorem holder_of_busy (busy : (l.state.core c).busy = true) : l.holder c = l.taken c := if_pos busy

theorem holder_of_stored (idle : (l.state.core c).busy = false)
    (code : (l.state.context c).codePtr.isSome = true) : l.holder c = l.stored c := by
  rw [holder, idle, code]
  rfl

theorem holder_of_free (idle : (l.state.core c).busy = false)
    (code : (l.state.context c).codePtr = none) : l.holder c = none := by
  rw [holder, idle, code]
  rfl

theorem SameEntry.holder (same : SameEntry l l' c) : l'.holder c = l.holder c := by
  rw [Ledger.holder, same.busy, same.code, same.stored, same.taken]
  rfl

/-- What is left to show for a step that changes the entries of one core. -/
theorem Recorded.of_entry (h : l.Recorded) (elsewhere : ∀ d, d ≠ c → SameEntry l l' d)
    (code : l'.codeUnread c = true ↔
      (l'.state.context c).codePtr.isSome = true ∧ (l'.state.core c).holds = false)
    (arg : l'.argUnread c = true →
      (l'.state.context c).codePtr.isSome = true ∧ (l'.state.core c).holdsArg = false ∨
        ∃ u, (l'.state.thread u).storedArg c = true)
    (storedArg : ∀ u d, d ≠ c → (l.state.thread u).storedArg d = true →
      (l'.state.thread u).storedArg d = true)
    (assigned : ∀ k d, d ≠ c → l'.Assigned k d → l.Assigned k d)
    (finished : ∀ k ∈ l.finished, k ∈ l'.finished)
    (held : ∀ k, l'.Assigned k c → k ∈ l'.finished ∨ l'.holder c = some k)
    (intact : l'.overwritten = false) : l'.Recorded := by
  refine ⟨?_, ?_, ?_, intact⟩
  · intro d
    by_cases same : d = c
    · exact same ▸ code
    · have eq := elsewhere d same
      rw [eq.code, eq.holds, eq.codeUnread]
      exact h.code d
  · intro d unread
    by_cases same : d = c
    · exact same ▸ arg (same ▸ unread)
    · have eq := elsewhere d same
      rw [eq.code, eq.holdsArg]
      refine (h.arg d (eq.argUnread ▸ unread)).imp_right ?_
      rintro ⟨u, stored⟩
      exact ⟨u, storedArg u d same stored⟩
  · intro k d given
    by_cases same : d = c
    · exact same ▸ held k (same ▸ given)
    · rw [(elsewhere d same).holder]
      exact (h.assigned k d (assigned k d same given)).imp_left (finished k)

/-! ## Steps of the cores -/

/-- What is left to show for a step of a core. -/
theorem Recorded.of_core (h : l.Recorded) (m : State.CoreMoved l.state c l'.state)
    (call : l'.call = l.call) (returned : l'.returned = l.returned)
    (elsewhere : ∀ d, d ≠ c → SameEntry l l' d)
    (code : l'.codeUnread c = true ↔
      (l'.state.context c).codePtr.isSome = true ∧ (l'.state.core c).holds = false)
    (arg : l'.argUnread c = true →
      (l'.state.context c).codePtr.isSome = true ∧ (l'.state.core c).holdsArg = false ∨
        ∃ u, (l.state.thread u).storedArg c = true)
    (finished : ∀ k ∈ l.finished, k ∈ l'.finished)
    (held : ∀ k, l.holder c = some k → k ∈ l'.finished ∨ l'.holder c = some k)
    (intact : l'.overwritten = false) : l'.Recorded := by
  have assigned : ∀ k d, l'.Assigned k d ↔ l.Assigned k d := by
    intro k d
    rw [Assigned, m.thread, call, returned]
    rfl
  refine h.of_entry elsewhere code (m.thread ▸ arg) (fun u d _ => ?_)
    (fun k d _ => (assigned k d).mp) finished ?_ intact
  · rw [m.thread]
    exact id
  · intro k given
    obtain done | holds := h.assigned k c ((assigned k c).mp given)
    · exact .inl (finished k done)
    · exact held k holds

theorem sameEntry_of_moved {s : State φ α} (m : State.CoreMoved l.state c s) (d : Nat) (ne : d ≠ c)
    (state : l'.state = s) (stored : l'.stored = l.stored) (taken : l'.taken d = l.taken d)
    (codeUnread : l'.codeUnread d = l.codeUnread d)
    (argUnread : l'.argUnread d = l.argUnread d) : SameEntry l l' d := by
  have same := m.elsewhere d ne
  subst state
  exact .of_core same.core (congrArg _ same.context) (congrFun stored d) taken codeUnread argUnread

/-- A step of a core that neither reads nor writes what is stored. -/
theorem Recorded.quietCore (h : l.Recorded) {s : State φ α} (m : State.CoreMoved l.state c s)
    (code : (s.context c).codePtr = (l.state.context c).codePtr)
    (holds : (s.core c).holds = (l.state.core c).holds)
    (holdsArg : (s.core c).holdsArg = (l.state.core c).holdsArg)
    (busy : (s.core c).busy = (l.state.core c).busy) : { l with state := s }.Recorded := by
  refine h.of_core m rfl rfl (fun d ne => sameEntry_of_moved m d ne rfl rfl rfl rfl rfl) ?_ ?_
    (fun _ => id) ?_ h.intact
  · rw [code, holds]
    exact h.code c
  · intro unread
    rw [code, holdsArg]
    exact h.arg c unread
  · intro k held
    have same : { l with state := s }.holder c = l.holder c := by
      simp only [holder, code, busy]
    exact .inr (same.trans held)

/-- The core reads the function. -/
theorem Recorded.readCode (h : l.Recorded) {s : State φ α} (m : State.CoreMoved l.state c s) {f : φ}
    (here : l.state.core c = .loop) (code : (l.state.context c).codePtr = some f)
    (next : s.core c = .loadArg f) (context : s.context c = l.state.context c) :
    { l with
      state := s
      taken := Function.update l.taken c (l.stored c)
      codeUnread := Function.update l.codeUnread c false }.Recorded := by
  refine h.of_core m rfl rfl ?_ ?_ ?_ (fun _ => id) ?_ h.intact
  · exact fun d ne => sameEntry_of_moved m d ne rfl rfl (by simp [ne]) (by simp [ne]) rfl
  · simp [next, Core.holds]
  · intro unread
    rw [context, next]
    exact (h.arg c unread).imp_left fun stored => ⟨stored.1, rfl⟩
  · intro k held
    rw [holder_of_stored (by rw [here]; rfl) (by rw [code]; rfl)] at held
    rw [holder_of_busy (by rw [next]; rfl)]
    exact .inr ((Function.update_self c _ _).trans held)

/-- The core reads the argument. -/
theorem Recorded.readArg (h : l.Recorded) {s : State φ α} (m : State.CoreMoved l.state c s) {f : φ}
    {a : α} (here : l.state.core c = .loadArg f) (next : s.core c = .increment f a)
    (context : s.context c = l.state.context c) :
    { l with state := s, argUnread := Function.update l.argUnread c false }.Recorded := by
  refine h.of_core m rfl rfl ?_ ?_ ?_ (fun _ => id) ?_ h.intact
  · exact fun d ne => sameEntry_of_moved m d ne rfl rfl rfl rfl (by simp [ne])
  · have unread := h.code c
    rw [here] at unread
    rw [next, context]
    exact unread
  · simp
  · intro k held
    rw [holder_of_busy (by rw [here]; rfl)] at held
    rw [holder_of_busy (by rw [next]; rfl)]
    exact .inr held

/-- The core clears the code pointer, which it has read. -/
theorem Recorded.clearCode (h : l.Recorded) {s : State φ α} (m : State.CoreMoved l.state c s)
    {f : φ} {a : α} (here : l.state.core c = .clearCode f a) (next : s.core c = .call f a)
    (cleared : (s.context c).codePtr = none) :
    { l with
      state := s
      codeUnread := Function.update l.codeUnread c false
      overwritten := l.overwritten || l.codeUnread c }.Recorded := by
  refine h.of_core m rfl rfl ?_ ?_ ?_ (fun _ => id) ?_ ?_
  · exact fun d ne => sameEntry_of_moved m d ne rfl rfl rfl (by simp [ne]) rfl
  · simp [cleared]
  · intro unread
    obtain ⟨-, not⟩ | stored := h.arg c unread
    · rw [here] at not
      cases not
    · exact .inr stored
  · intro k held
    rw [holder_of_busy (by rw [here]; rfl)] at held
    rw [holder_of_busy (by rw [next]; rfl)]
    exact .inr held
  · cases unread : l.codeUnread c with
    | false => rw [h.intact]; rfl
    | true =>
        have not := ((h.code c).mp unread).2
        rw [here] at not
        cases not

/-- The function returns. -/
theorem Recorded.finish (h : l.Recorded) {s : State φ α} (m : State.CoreMoved l.state c s)
    {f : φ} {a : α} (here : l.state.core c = .running f a) (next : s.core c = .setDone)
    (context : s.context c = l.state.context c) :
    { l with state := s, finished := l.finished ++ (l.taken c).toList }.Recorded := by
  refine h.of_core m rfl rfl (fun d ne => sameEntry_of_moved m d ne rfl rfl rfl rfl rfl) ?_ ?_
    (fun k mem => List.mem_append_left _ mem) ?_ h.intact
  · have unread := h.code c
    rw [here] at unread
    rw [context, next]
    exact unread
  · intro unread
    rw [context, next]
    exact (h.arg c unread).imp_left fun stored => ⟨stored.1, rfl⟩
  · intro k held
    rw [holder_of_busy (by rw [here]; rfl)] at held
    refine .inl (List.mem_append_right _ ?_)
    rw [held]
    exact List.mem_singleton_self k

/-- Step lemma for the cores. -/
theorem Recorded.stepCore (h : l.Recorded) (sound : l.state.Sound c) {s : State φ α}
    (run : l.state.stepCore c = some s) : { l.recordCore c with state := s }.Recorded := by
  have m := State.stepCore_moved sound run
  simp only [State.stepCore] at run
  rw [recordCore]
  cases here : l.state.core c <;> simp only [here] at run
  case off => cases run
  case loop =>
    cases code : (l.state.context c).codePtr with
    | none =>
        simp only [code] at run
        cases run
        exact h.quietCore m rfl (by simp [here]) (by simp [here]) (by simp [here])
    | some f =>
        simp only [code] at run
        cases run
        exact h.readCode m here code (by simp) rfl
  case loadArg f =>
    cases run
    exact h.readArg m here (Function.update_self c _ _) rfl
  case clearCode f a =>
    cases run
    exact h.clearCode m here (by simp) (by simp)
  case running f a =>
    obtain ⟨-, ⟨⟩⟩ := Option.ite_none_left_eq_some.mp run
    exact h.finish m here (by simp) rfl
  all_goals
    cases run
    exact h.quietCore m (by simp) (by simp [here, Core.holds]) (by simp [here, Core.holdsArg])
      (by simp [here, Core.busy, Core.holds])

/-! ## Steps of the threads -/

/-- Calls are only assigned to a core by storing a function for it. -/
theorem assigned_of_moved {k c : Nat} (given : l'.Assigned k c)
    (thread : l'.state.thread = Function.update l.state.thread w p)
    (call : ∀ u, u ≠ w → l'.call u = l.call u)
    (waits : ∀ c, p.waitsAt c = true → (l.state.thread w).waitsAt c = true ∧ l'.call w = l.call w)
    (returned : ∀ k c, (k, coreToThread c) ∈ l'.returned →
      (k, coreToThread c) ∈ l.returned ∨ (l.state.thread w).waitsAt c = true ∧ l.call w = k) :
    l.Assigned k c := by
  obtain ⟨u, waiting, mine⟩ | back := given
  · rw [thread] at waiting
    by_cases self : u = w
    · subst self
      rw [Function.update_self] at waiting
      obtain ⟨before, same⟩ := waits c waiting
      exact .inl ⟨u, before, same ▸ mine⟩
    · rw [Function.update_of_ne self] at waiting
      exact .inl ⟨u, waiting, call u self ▸ mine⟩
  · obtain before | ⟨waiting, mine⟩ := returned k c back
    · exact .inr before
    · exact .inl ⟨w, waiting, mine⟩

theorem storedArg_of_moved {s : State φ α} (thread : s.thread = Function.update l.state.thread w p)
    {d : Nat} (kept : (l.state.thread w).storedArg d = true → p.storedArg d = true) (u : Nat)
    (stored : (l.state.thread u).storedArg d = true) : (s.thread u).storedArg d = true := by
  rw [thread]
  by_cases self : u = w
  · subst self
    rw [Function.update_self]
    exact kept stored
  · rw [Function.update_of_ne self]
    exact stored

/-- A step of a thread that stores nothing. -/
theorem Recorded.moveThread (h : l.Recorded)
    (thread : l'.state.thread = Function.update l.state.thread w p)
    (same : ∀ c, SameEntry l l' c) (stored : ∀ c, (l.state.thread w).storedArg c = false)
    (assigned : ∀ k c, l'.Assigned k c → l.Assigned k c) (finished : l'.finished = l.finished)
    (intact : l'.overwritten = l.overwritten) : l'.Recorded := by
  refine ⟨?_, ?_, ?_, intact.trans h.intact⟩
  · intro c
    rw [(same c).code, (same c).holds, (same c).codeUnread]
    exact h.code c
  · intro c unread
    rw [(same c).code, (same c).holdsArg]
    refine (h.arg c ((same c).argUnread ▸ unread)).imp_right ?_
    rintro ⟨u, arg⟩
    refine ⟨u, storedArg_of_moved thread ?_ u arg⟩
    rw [stored c]
    exact fun no => (Bool.false_ne_true no).elim
  · intro k c given
    rw [(same c).holder, finished]
    exact h.assigned k c (assigned k c given)

/-- A thread stores an argument, and none stands there unread. -/
theorem Recorded.writeArg (h : l.Recorded) {s : State φ α} {i : Nat}
    (thread : s.thread = Function.update l.state.thread w p)
    (core : s.core = l.state.core)
    (code : ∀ c, (s.context c).codePtr = (l.state.context c).codePtr)
    (none : (l.state.context i).codePtr = none)
    (others : ∀ u, (l.state.thread u).storedArg i = false)
    (before : ∀ c, (l.state.thread w).storedArg c = false)
    (after : p.storedArg i = true) (waits : ∀ c, p.waitsAt c = false) :
    { l.writeArg i with state := s }.Recorded := by
  have assigned : ∀ k c, { l.writeArg i with state := s }.Assigned k c → l.Assigned k c := by
    intro k c given
    refine assigned_of_moved given thread (fun _ _ => rfl) ?_ (fun _ _ => .inl)
    intro c waiting
    rw [waits c] at waiting
    cases waiting
  refine h.of_entry (c := i) ?_ ?_ ?_ ?_ (fun k d _ => assigned k d) (fun _ => id) ?_ ?_
  · intro d ne
    exact .of_core (congrFun core d) (code d) rfl rfl rfl (Function.update_of_ne ne _ _)
  · rw [core, code]
    exact h.code i
  · intro _
    refine .inr ⟨w, ?_⟩
    rw [thread, Function.update_self]
    exact after
  · intro u d _
    refine storedArg_of_moved thread ?_ u
    rw [before d]
    exact fun no => (Bool.false_ne_true no).elim
  · intro k given
    have same : { l.writeArg i with state := s }.holder i = l.holder i := by
      simp only [holder, core, code]
      rfl
    rw [same]
    exact h.assigned k i (assigned k i given)
  · cases unread : l.argUnread i with
    | false =>
        simp only [Ledger.writeArg, unread, h.intact]
        rfl
    | true =>
        obtain ⟨stored, -⟩ | ⟨u, stored⟩ := h.arg i unread
        · rw [none] at stored
          cases stored
        · rw [others u] at stored
          cases stored

/-- A thread stores a function for a core that waits. -/
theorem Recorded.writeCode (h : l.Recorded) {s : State φ α} {i : Nat} {call : Option Nat}
    (thread : s.thread = Function.update l.state.thread w p)
    (core : s.core = l.state.core)
    (elsewhere : ∀ c, c ≠ i → (s.context c).codePtr = (l.state.context c).codePtr)
    (stored : (s.context i).codePtr.isSome = true)
    (waits : (l.state.core i).Waits) (none : (l.state.context i).codePtr = none)
    (before : ∀ c, c ≠ i → (l.state.thread w).storedArg c = false)
    (mine : ∀ c, p.waitsAt c = true → c = i ∧ call = some (l.call w)) :
    { l.writeCode i call with state := s }.Recorded := by
  have idle : (l.state.core i).busy = false ∧ (l.state.core i).holds = false ∧
      (l.state.core i).holdsArg = false := by
    obtain off | loop | decrement := waits
    · rw [off]; exact ⟨rfl, rfl, rfl⟩
    · rw [loop]; exact ⟨rfl, rfl, rfl⟩
    · rw [decrement]; exact ⟨rfl, rfl, rfl⟩
  have cases : ∀ k c, { l.writeCode i call with state := s }.Assigned k c →
      l.Assigned k c ∨ c = i ∧ call = some k := by
    rintro k c (⟨u, waiting, same⟩ | back)
    · rw [thread] at waiting
      by_cases self : u = w
      · subst self
        rw [Function.update_self] at waiting
        obtain ⟨rfl, eq⟩ := mine c waiting
        exact .inr ⟨rfl, eq.trans (congrArg some same)⟩
      · rw [Function.update_of_ne self] at waiting
        exact .inl (.inl ⟨u, waiting, same⟩)
    · exact .inl (.inr back)
  refine h.of_entry (c := i) ?_ ?_ ?_ ?_ ?_ (fun _ => id) ?_ ?_
  · intro d ne
    exact .of_core (congrFun core d) (elsewhere d ne) (Function.update_of_ne ne _ _) rfl
      (Function.update_of_ne ne _ _) rfl
  · rw [core]
    exact iff_of_true (Function.update_self i _ _) ⟨stored, idle.2.1⟩
  · intro _
    rw [core]
    exact .inl ⟨stored, idle.2.2⟩
  · intro u d ne
    refine storedArg_of_moved thread ?_ u
    rw [before d ne]
    exact fun no => (Bool.false_ne_true no).elim
  · intro k d ne given
    exact (cases k d given).resolve_right fun now => ne now.1
  · intro k given
    obtain given | ⟨-, now⟩ := cases k i given
    · -- What was assigned to the core before has finished: the core holds nothing.
      refine .inl ((h.assigned k i given).resolve_right ?_)
      rw [holder_of_free idle.1 none]
      exact Option.some_ne_none k ∘ Eq.symm
    · refine .inr ?_
      rw [holder_of_stored (by rw [core]; exact idle.1) stored]
      exact (Function.update_self i _ _).trans now
  · cases unread : l.codeUnread i with
    | false =>
        simp only [Ledger.writeCode, unread, h.intact]
        rfl
    | true =>
        have some := ((h.code i).mp unread).1
        rw [none] at some
        cases some

/-- A step of a thread that the ledger does not record. -/
theorem Recorded.quietThread (h : l.Recorded) {s : State φ α}
    (thread : s.thread = Function.update l.state.thread w p)
    (same : ∀ c, State.SameAt l.state s c) (stored : ∀ c, (l.state.thread w).storedArg c = false)
    (waits : ∀ c, p.waitsAt c = true → (l.state.thread w).waitsAt c = true) :
    { l with state := s }.Recorded := by
  refine h.moveThread thread ?_ stored ?_ rfl rfl
  · intro c
    exact .of_core (same c).core (congrArg _ (same c).context) rfl rfl rfl rfl
  · intro k c given
    exact assigned_of_moved given thread (fun _ _ => rfl) (fun c waiting => ⟨waits c waiting, rfl⟩)
      (fun _ _ => .inl)

/-- A call returns. -/
theorem Recorded.addReturned (h : l.Recorded) {s : State φ α} {id : Nat}
    (thread : s.thread = Function.update l.state.thread w .idle)
    (same : ∀ c, State.SameAt l.state s c) (stored : ∀ c, (l.state.thread w).storedArg c = false)
    (waited : ∀ c, id = coreToThread c → (l.state.thread w).waitsAt c = true) :
    { l.addReturned w id with state := s }.Recorded := by
  refine h.moveThread thread ?_ stored ?_ rfl rfl
  · intro c
    exact .of_core (same c).core (congrArg _ (same c).context) rfl rfl rfl rfl
  · intro k c given
    refine assigned_of_moved given thread (fun _ _ => rfl) (fun c => by simp [Thread.waitsAt]) ?_
    intro k c mem
    obtain before | now := List.mem_append.mp mem
    · exact .inl before
    · obtain ⟨rfl, eq⟩ := Prod.mk.inj (List.mem_singleton.mp now)
      exact .inr ⟨waited c eq.symm, rfl⟩

theorem storedArg_eq_false {i : Nat} (others : ∀ u, u ≠ w → ¬ (l.state.thread u).Relies i)
    (before : (l.state.thread w).storedArg i = false) (u : Nat) :
    (l.state.thread u).storedArg i = false := by
  by_cases self : u = w
  · exact self ▸ before
  · exact Bool.eq_false_iff.mpr fun stored => others u self (Thread.relies_of_storedArg stored)

/-- A store that keeps the function of an entry keeps it everywhere. -/
theorem codePtr_setContext {s : State φ α} {i : Nat} {x : Context φ α}
    (same : x.codePtr = (s.context i).codePtr) (c : Nat) :
    ((s.setContext i x).context c).codePtr = (s.context c).codePtr := by
  rw [State.setContext_context]
  by_cases at' : c = i
  · subst at'
    rw [Function.update_self, same]
  · rw [Function.update_of_ne at']

/-- Step lemma for the threads. -/
theorem Recorded.stepThread (h : l.Recorded) (r : State.Reserved P l.state) {s : State φ α}
    (run : l.state.stepThread P w = some s) : { l.recordThread P w with state := s }.Recorded := by
  have fits := r.thread w
  have placed := r.placed w
  generalize record : l.recordThread P w = after
  rw [recordThread] at record
  simp only [State.stepThread] at run
  cases here : l.state.thread w <;>
    simp only [here, State.ThreadFits, Thread.Placed] at run fits placed record
  case idle | exited => cases run
  all_goals subst record
  case initArg i =>
    cases run
    have untouched := fits i (Nat.le_refl i)
    exact h.writeArg rfl rfl (codePtr_setContext rfl) untouched.2.1
      (storedArg_eq_false (r.others_of_off placed.1 untouched.1) (by rw [here]; rfl))
      (by rw [here]; exact fun _ => rfl) (decide_eq_true rfl) (fun _ => rfl)
  case addArg i f a =>
    cases run
    have others := r.others_of_chosen (by rw [here]; exact decide_eq_true rfl) fits.2
    exact h.writeArg rfl rfl (codePtr_setContext rfl) fits.2.2
      (storedArg_eq_false others (by rw [here]; rfl))
      (by rw [here]; exact fun _ => rfl) (decide_eq_true rfl) (fun _ => rfl)
  case initCode i =>
    cases run
    have untouched := fits.1 i (Nat.le_refl i)
    refine h.writeCode rfl rfl (fun c ne => by simp [ne]) (by simp) (.inl untouched.1) untouched.2.1
      (fun c ne => ?_) (fun c => by simp [Thread.waitsAt])
    rw [here]
    exact decide_eq_false ne.symm
  case addCode i f a =>
    cases run
    have waits := (r.sound i).fits.waits_of_ready fits.2.1.1 fits.2.1.2
    refine h.writeCode rfl rfl (fun c ne => by simp [ne]) (by simp) waits fits.2.1.2
      (fun c ne => ?_) (fun c waiting => ⟨(of_decide_eq_true waiting).symm, rfl⟩)
    rw [here]
    exact decide_eq_false ne.symm
  case initReset i =>
    cases run
    refine h.moveThread (p := .initLoop (i + 1)) rfl ?_ (by rw [here]; exact fun _ => rfl) ?_
      rfl rfl
    · intro c
      by_cases same : c = i
      · subst same
        constructor <;> simp [fits.2, Core.busy, Core.holds, Core.holdsArg]
      · exact .of_core (by simp [same]) rfl rfl rfl rfl rfl
    · intro k c given
      exact assigned_of_moved (p := .initLoop (i + 1)) given rfl (fun _ _ => rfl)
        (fun c => by simp [Thread.waitsAt]) (fun _ _ => .inl)
  case addLoop i f a =>
    split at run
    next lt =>
      cases run
      rw [if_pos lt]
      exact h.quietThread rfl (fun _ => ⟨rfl, rfl, rfl, rfl, rfl⟩)
        (by rw [here]; exact fun _ => rfl) (fun c => by simp [Thread.waitsAt])
    next ge =>
      cases run
      rw [if_neg ge]
      exact h.addReturned rfl (fun _ => ⟨rfl, rfl, rfl, rfl, rfl⟩)
        (by rw [here]; exact fun _ => rfl) (fun c => by simp [coreToThread])
  case addWait i f a =>
    cases code : (l.state.context i).codePtr with
    | some g =>
        simp only [code] at run
        cases run
        refine h.quietThread rfl (fun _ => ⟨rfl, rfl, rfl, rfl, rfl⟩)
          (by rw [here]; exact fun _ => rfl) ?_
        rw [here]
        exact fun _ => id
    | none =>
        simp only [code] at run
        cases run
        refine h.addReturned rfl (fun _ => ⟨rfl, rfl, rfl, rfl, rfl⟩)
          (by rw [here]; exact fun _ => rfl) ?_
        rw [here]
        exact fun c eq => decide_eq_true (Nat.succ.inj eq)
  case addPing i f a =>
    cases run
    refine h.quietThread rfl (fun _ => ⟨rfl, rfl, rfl, rfl, rfl⟩)
      (by rw [here]; exact fun _ => rfl) ?_
    rw [here]
    exact fun _ => id
  case exitDecrement =>
    cases run
    generalize sub64 l.state.executing 1 = executing
    exact h.quietThread rfl (fun _ => ⟨rfl, rfl, rfl, rfl, rfl⟩)
      (by rw [here]; exact fun _ => rfl) (fun c => by simp [Thread.waitsAt])
  case initLoop i | waitLoop i | waitDone i | exitWait =>
    cases run
    split <;>
      exact h.quietThread rfl (fun _ => ⟨rfl, rfl, rfl, rfl, rfl⟩)
        (by rw [here]; exact fun _ => rfl) (fun c => by simp [Thread.waitsAt])
  case addLoad i f a =>
    cases run
    split <;>
      exact h.quietThread rfl (fun _ => ⟨rfl, rfl, rfl, rfl, rfl⟩)
        (by rw [here]; exact fun _ => rfl) (fun c => by simp [Thread.waitsAt])

theorem recorded_initial : (initial P).Recorded where
  code c := by simp [initial, State.initial]
  arg c unread := by cases unread
  assigned k c given := by
    obtain ⟨u, waiting, -⟩ | back := given
    · simp only [initial, State.initial] at waiting
      split at waiting <;> cases waiting
    · cases back
  intact := rfl

/-- Step lemma. -/
theorem Recorded.step {e : Event φ α} (h : l.Recorded) (r : State.Reserved P l.state)
    (next : Within (Ledger.Careful P) (Ledger.step P) l e l') :
    l'.Recorded ∧ State.Reserved P l'.state := by
  obtain ⟨careful, next⟩ := next
  obtain ⟨s, run, rfl⟩ := Option.map_eq_some_iff.mp next
  clear next
  refine ⟨?_, r.step ⟨careful, run⟩⟩
  cases e with
  | add w f a =>
      simp only [State.step] at run
      split at run
      next here =>
        obtain ⟨-, ⟨⟩⟩ := Option.ite_none_right_eq_some.mp run
        refine h.moveThread (p := .addLoop 1 f a) rfl (fun c => .of_core rfl rfl rfl rfl rfl rfl)
          (by rw [here]; exact fun _ => rfl) ?_ rfl rfl
        intro k c given
        exact assigned_of_moved (p := .addLoop 1 f a) given rfl
          (fun u ne => Function.update_of_ne ne _ _) (fun c => by simp [Thread.waitsAt])
          (fun _ _ => .inl)
      next => cases run
  | exit =>
      simp only [State.step] at run
      split at run
      next here =>
        cases run
        exact h.quietThread rfl (fun _ => ⟨rfl, rfl, rfl, rfl, rfl⟩)
          (by rw [here]; exact fun _ => rfl) (fun c => by simp [Thread.waitsAt])
      next => cases run
  | thread w => exact h.stepThread r run
  | core c => exact h.stepCore (r.sound c) run

/-- Run lemma. -/
theorem recorded_run {events : List (Event φ α)}
    (run : Run (Within (Ledger.Careful P) (Ledger.step P)) (initial P) events l) : l.Recorded := by
  have both : l.Recorded ∧ State.Reserved P l.state := by
    refine run.invariant (fun l => l.Recorded ∧ State.Reserved P l.state) ?_
      ⟨recorded_initial, State.reserved_initial⟩
    rintro l e l' ⟨h, r⟩ next
    exact h.step r next
  exact both.1

/-! ## Careless steps -/

theorem within_core {s : State φ α} (run : l.state.stepCore c = some s) :
    Within (Ledger.Careful P) (Ledger.step P) l (.core c) { l.recordCore c with state := s } :=
  ⟨trivial, congrArg (Option.map _) run⟩

theorem within_thread {s : State φ α} (loads : (l.state.thread w).loads = none)
    (run : l.state.stepThread P w = some s) :
    Within (Ledger.Careful P) (Ledger.step P) l (.thread w)
      { l.recordThread P w with state := s } := by
  refine ⟨?_, congrArg (Option.map _) run⟩
  intro i mem
  rw [loads] at mem
  cases mem

/-- Something is overwritten unread after some further careful steps. -/
def Doomed (P : Platform φ α) (l : Ledger φ α) : Prop :=
  ∃ more l', Run (Within (Ledger.Careful P) (Ledger.step P)) l more l' ∧ l'.overwritten = true

theorem Doomed.of_step {e : Event φ α} (first : Within (Ledger.Careful P) (Ledger.step P) l e l')
    (doomed : Doomed P l') : Doomed P l := by
  obtain ⟨more, last, run, overwritten⟩ := doomed
  exact ⟨e :: more, last, .cons first run, overwritten⟩

theorem doomed_of_clearCode {f : φ} {a : α} (here : l.state.core c = .clearCode f a)
    (unread : l.codeUnread c = true) : Doomed P l := by
  refine .of_step (within_core (by rw [State.stepCore, here])) ⟨[], _, .nil _, ?_⟩
  simp [recordCore, here, unread]

theorem doomed_of_clearDone {f : φ} {a : α} (here : l.state.core c = .clearDone f a)
    (unread : l.codeUnread c = true) : Doomed P l := by
  obtain ⟨s, run, core⟩ : ∃ s, l.state.stepCore c = some s ∧ s.core c = .clearCode f a := by
    simp [State.stepCore, here]
  exact .of_step (within_core run)
    (doomed_of_clearCode core (by simpa [recordCore, here] using unread))

theorem doomed_of_increment {f : φ} {a : α} (here : l.state.core c = .increment f a)
    (unread : l.codeUnread c = true) : Doomed P l := by
  obtain ⟨s, run, core⟩ : ∃ s, l.state.stepCore c = some s ∧ s.core c = .clearDone f a := by
    simp [State.stepCore, here]
  exact .of_step (within_core run)
    (doomed_of_clearDone core (by simpa [recordCore, here] using unread))

/-- The core overwrites a function that was stored after it had read another. -/
theorem doomed_of_held (held : (l.state.core c).holds = true) (unread : l.codeUnread c = true) :
    Doomed P l := by
  cases here : l.state.core c <;> rw [here] at held
  case clearCode f a => exact doomed_of_clearCode here unread
  case clearDone f a => exact doomed_of_clearDone here unread
  case increment f a => exact doomed_of_increment here unread
  case loadArg f =>
    obtain ⟨s, run, a, core⟩ :
        ∃ s, l.state.stepCore c = some s ∧ ∃ a, s.core c = .increment f a := by
      simp [State.stepCore, here]
    exact .of_step (within_core run)
      (doomed_of_increment core (by simpa [recordCore, here] using unread))
  all_goals cases held

/-- A call that stores its function over one that is there. -/
theorem doomed_of_addCode {i : Nat} {f : φ} {a : α} (here : l.state.thread w = .addCode i f a)
    (stored : l.codeUnread i = true ∨ (l.state.core i).holds = true) : Doomed P l := by
  obtain ⟨s, run, core⟩ :
      ∃ s, l.state.stepThread P w = some s ∧ s.core i = l.state.core i := by
    simp [State.stepThread, here]
  refine .of_step (within_thread (by rw [here]; rfl) run) ?_
  obtain unread | held := stored
  · refine ⟨[], _, .nil _, ?_⟩
    simp [recordThread, here, writeCode, unread]
  · refine doomed_of_held (c := i) ?_ (by simp [recordThread, here, writeCode])
    rw [core]
    exact held

theorem doomed_of_addArg {i : Nat} {f : φ} {a : α} (here : l.state.thread w = .addArg i f a)
    (stored : l.codeUnread i = true ∨ (l.state.core i).holds = true) : Doomed P l := by
  obtain ⟨s, run, core, thread⟩ : ∃ s, l.state.stepThread P w = some s ∧
      s.core i = l.state.core i ∧ s.thread w = .addCode i f a := by
    simp [State.stepThread, here]
  refine .of_step (within_thread (by rw [here]; rfl) run) (doomed_of_addCode thread ?_)
  rw [core]
  simpa [recordThread, here, Ledger.writeArg] using stored

/-- Two calls have chosen the same core. -/
theorem doomed_of_chosen {i u : Nat} {f : φ} {a : α} (here : l.state.thread w = .addArg i f a)
    (ne : w ≠ u) (chosen : (l.state.thread u).chooses i = true) : Doomed P l := by
  have second : ∀ (l : Ledger φ α) (g : φ) (b : α), l.state.thread w = .addArg i f a →
      l.state.thread u = .addCode i g b → Doomed P l := by
    intro l g b here there
    obtain ⟨s, run, thread⟩ : ∃ s, l.state.stepThread P u = some s ∧
        s.thread w = l.state.thread w := by
      simp [State.stepThread, there, ne]
    refine .of_step (within_thread (by rw [there]; rfl) run)
      (doomed_of_addArg (thread.trans here) (.inl ?_))
    simp [recordThread, there, writeCode]
  cases there : l.state.thread u <;> rw [there] at chosen
  case addCode j g b =>
    obtain rfl : j = i := of_decide_eq_true chosen
    exact second l g b here there
  case addArg j g b =>
    obtain rfl : j = i := of_decide_eq_true chosen
    obtain ⟨s, run, thread, self⟩ : ∃ s, l.state.stepThread P u = some s ∧
        s.thread w = l.state.thread w ∧ s.thread u = .addCode j g b := by
      simp [State.stepThread, there, ne]
    exact .of_step (within_thread (by rw [there]; rfl) run)
      (second _ g b (thread.trans here) self)
  all_goals cases chosen

/-- A careless step is one after which careful steps can lead to a collision. -/
theorem Recorded.doomed_of_careless (h : l.Recorded) {e : Event φ α} (careless : ¬ l.Careful P e)
    (run : l.step P e = some l') : Doomed P l' := by
  cases e with
  | add w f a => exact absurd trivial careless
  | exit => exact absurd trivial careless
  | core c => exact absurd trivial careless
  | thread w =>
      obtain ⟨s, next, rfl⟩ := Option.map_eq_some_iff.mp run
      change ¬ ∀ i ∈ (l.state.thread w).loads, _ at careless
      push Not at careless
      obtain ⟨i, loads, done, conflict⟩ := careless
      cases here : l.state.thread w <;> rw [here] at loads
      case addLoad j f a =>
        obtain rfl : j = i := Option.some.inj loads
        simp only [State.step, State.stepThread, here, if_pos done] at next
        cases next
        have record : l.record P (.thread w) = l := by simp [record, recordThread, here]
        rw [record]
        have chosen : (l.state.setThread w (.addArg j f a)).thread w = .addArg j f a :=
          Function.update_self w _ _
        cases code : (l.state.context j).codePtr.isSome with
        | true =>
            refine doomed_of_addArg chosen ?_
            cases held : (l.state.core j).holds with
            | true => exact .inr held
            | false => exact .inl ((h.code j).mpr ⟨code, held⟩)
        | false =>
            obtain ⟨u, -, theirs⟩ := conflict (by simpa using code)
            have ne : w ≠ u := by
              rintro rfl
              rw [here] at theirs
              exact theirs rfl
            refine doomed_of_chosen chosen ne ?_
            simpa [ne.symm] using theirs
      all_goals cases loads

end Ledger

/-- For any number of threads that call `add_thread` concurrently and any interleaving with the
loops of the other cores, as long as calls only find a core done for which nothing is stored and
which no other call has chosen: no two calls that have returned the same id are both unfinished, and
no function or argument is overwritten before the core has read it. That is the least that keeps it
so: a step is of this kind if and only if there is no collision after any further such steps. -/
theorem add_thread_collides_iff_careless {φ α : Type} (P : Platform φ α)
    (events : List (Event φ α)) (l : Ledger φ α)
    (run : Run (Within (Ledger.Careful P) (Ledger.step P)) (Ledger.initial P) events l) :
    l.NoCollision ∧ ∀ e l', l.step P e = some l' →
      (l.Careful P e ↔ ∀ more l'', Run (Within (Ledger.Careful P) (Ledger.step P)) l' more l'' →
        l''.NoCollision) := by
  refine ⟨(Ledger.recorded_run run).noCollision, ?_⟩
  intro e l' step
  constructor
  · intro careful more l'' rest
    have all := run.append (.cons ⟨careful, step⟩ rest)
    exact (Ledger.recorded_run all).noCollision
  · intro never
    by_contra careless
    obtain ⟨more, l'', rest, overwritten⟩ :=
      (Ledger.recorded_run run).doomed_of_careless careless step
    rw [(never more l'' rest).intact] at overwritten
    cases overwritten

/-- Three cores; functions are named by numbers. -/
def collisionPlatform : Platform Nat Nat := ⟨3, 0, id, by decide⟩

/-- The main thread starts function 7 on the second core. Both then call `add_thread`, and find
the third core done. -/
def sampleChoices : List (Event Nat Nat) :=
  [List.replicate 9 (.thread 0), List.replicate 10 (.core 1), List.replicate 10 (.core 2),
    List.replicate 5 (.thread 0), [.add 0 7 5], List.replicate 4 (.thread 0),
    List.replicate 6 (.core 1), [.thread 0, .add 0 8 6, .add 1 9 4], List.replicate 4 (.thread 0),
    List.replicate 3 (.thread 1)].flatten

/-- Function 8 is stored, and overwritten by function 9. Both calls return when that is taken. -/
def sampleCollision : List (Event Nat Nat) :=
  [sampleChoices, [.thread 1], List.replicate 2 (.thread 0), List.replicate 2 (.thread 1),
    List.replicate 6 (.core 2), [.thread 0, .thread 1]].flatten

theorem add_thread_collides_iff_careless_sample : ∃ l : Ledger Nat Nat,
    Run (Within (Ledger.Careful collisionPlatform) (Ledger.step collisionPlatform))
      (Ledger.initial collisionPlatform) sampleChoices l ∧
      l.returned = [(0, 2)] ∧ l.NoCollision := by
  have done : (simulate (Ledger.Careful collisionPlatform) (Ledger.step collisionPlatform)
      sampleChoices (Ledger.initial collisionPlatform)).map (fun l => l.returned) =
      some [(0, 2)] := by decide +kernel
  obtain ⟨l, hl, returned⟩ := Option.map_eq_some_iff.mp done
  have run := simulate_run hl
  exact ⟨l, run, returned, (add_thread_collides_iff_careless collisionPlatform _ l run).1⟩

/-- Two calls return the id of the third core, and the function of one of them is never called. -/
theorem concurrent_calls_collide : ∃ l : Ledger Nat Nat,
    Run (Within (fun _ _ => True) (Ledger.step collisionPlatform))
      (Ledger.initial collisionPlatform) sampleCollision l ∧
      l.returned = [(0, 2), (1, 3), (2, 3)] ∧ l.finished = [] ∧ l.overwritten = true ∧
      l.state.started 2 = [(0, 2), (9, 4)] ∧ ¬ l.NoCollision := by
  have done : (simulate (fun _ _ => True) (Ledger.step collisionPlatform) sampleCollision
      (Ledger.initial collisionPlatform)).map
        (fun l => (l.returned, l.finished, l.overwritten, l.state.started 2)) =
      some ([(0, 2), (1, 3), (2, 3)], [], true, [(0, 2), (9, 4)]) := by decide +kernel
  obtain ⟨l, hl, seen⟩ := Option.map_eq_some_iff.mp done
  simp only [Prod.mk.injEq] at seen
  obtain ⟨returned, finished, overwritten, started⟩ := seen
  refine ⟨l, simulate_run hl, returned, finished, overwritten, started, ?_⟩
  intro none
  rw [none.intact] at overwritten
  cases overwritten

end Monza.Handover
