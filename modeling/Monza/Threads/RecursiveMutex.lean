import Mathlib.Logic.Function.Basic
import Mathlib.Tactic.Simps.Basic
import Monza.Lib.Transition

/-!
# The recursive mutex

`CustomRecursiveMutexImpl` for any number of threads and mutexes. It is the mutex with a second
variable, the thread that has taken it, which is stored after the spinlock has been released, by
`lock` as by `unlock`. How often a thread has locked is not counted, and `trylock` answers its
owner as it answers the others.

So it is a recursive mutex only as long as three conditions are met: the owner unlocks at depth
one, does not call `trylock`, and when it locks again finds its own id. The last can fail since an
earlier owner may clear the id of its successor. Each step that does not meet them leads to a
state that a recursive mutex does not have.
-/

namespace Monza.RecursiveMutex

open Transition

/-- Where a thread is, by the shared access that comes next, with its local variables. -/
inductive Phase (τ μ : Type) where
  | idle
  | lockLoad (m : μ)
  | lockSpin (m : μ)
  | lockExchange (m : μ)
  | lockUnspin (m : μ)
  | lockStore (m : μ)
  | lockEnqueue (m : μ)
  | lockRelease (m : μ)
  | lockSleep (m : μ)
  | tryLoad (m : μ)
  | tryExchange (m : μ)
  | tryStore (m : μ)
  | tryReturn (m : μ) (result : Bool)
  | unlockSpin (m : μ)
  | unlockStore (m : μ)
  | unlockDequeue (m : μ)
  | unlockRelease (m : μ) (entry : Option τ)
  | unlockClear (m : μ) (entry : Option τ)
  | unlockWake (entry : Option τ)
  deriving DecidableEq, Repr

/-- The shared variables; `depth` records how many more locks than unlocks of the mutex the thread
has done. -/
structure State (τ μ : Type) where
  spin : μ → Bool
  taken : μ → Bool
  takenThread : μ → Option τ
  waiters : μ → List τ
  semaphore : τ → Nat
  phase : τ → Phase τ μ
  depth : μ → τ → Nat

inductive Event (τ μ : Type) where
  | lock (t : τ) (m : μ)
  | trylock (t : τ) (m : μ)
  | unlock (t : τ) (m : μ)
  | advance (t : τ)
  deriving DecidableEq, Repr

namespace State

variable {τ μ : Type} [DecidableEq τ] [DecidableEq μ]

def initial : State τ μ :=
  ⟨fun _ => false, fun _ => false, fun _ => none, fun _ => [], fun _ => 0, fun _ => .idle,
    fun _ _ => 0⟩

variable (s : State τ μ) (t : τ)

@[simps] def moveTo (phase : Phase τ μ) : State τ μ :=
  { s with phase := Function.update s.phase t phase }

def setDepth (m : μ) (n : Nat) : State τ μ :=
  { s with depth := Function.update s.depth m (Function.update (s.depth m) t n) }

/-- One round of `Spinlock::acquire`; the exchange stores in either case. -/
def acquireSpin (m : μ) (inside : Phase τ μ) : State τ μ :=
  { s with spin := Function.update s.spin m true }.moveTo t
    (if s.spin m then s.phase t else inside)

def releaseSpin (m : μ) (next : Phase τ μ) : State τ μ :=
  { s with spin := Function.update s.spin m false }.moveTo t next

/-- `taken.exchange(true)`. -/
def exchange (m : μ) (success failure : Phase τ μ) : State τ μ :=
  if s.taken m then s.moveTo t failure
  else
    ({ s with taken := Function.update s.taken m true }.setDepth t m (s.depth m t + 1)).moveTo t
      success

/-- `taken_thread.store`; the id 0 is `none`. -/
def storeThread (m : μ) (thread : Option τ) (next : Phase τ μ) : State τ μ :=
  { s with takenThread := Function.update s.takenThread m thread }.moveTo t next

/-- The next step of a thread. -/
def advance : Option (State τ μ) :=
  match s.phase t with
  | .idle => none
  | .lockLoad m =>
      if s.takenThread m = some t then
        some ((s.setDepth t m (s.depth m t + 1)).moveTo t .idle)
      else some (s.moveTo t (.lockSpin m))
  | .lockSpin m => some (s.acquireSpin t m (.lockExchange m))
  | .lockExchange m => some (s.exchange t m (.lockUnspin m) (.lockEnqueue m))
  | .lockUnspin m => some (s.releaseSpin t m (.lockStore m))
  | .lockStore m => some (s.storeThread t m (some t) .idle)
  | .lockEnqueue m =>
      some <| { s with waiters := Function.update s.waiters m (s.waiters m ++ [t]) }.moveTo t
        (.lockRelease m)
  | .lockRelease m => some (s.releaseSpin t m (.lockSleep m))
  | .lockSleep m =>
      if 0 < s.semaphore t then
        some <| { s with semaphore := Function.update s.semaphore t (s.semaphore t - 1) }.moveTo t
          (.lockSpin m)
      else none
  | .tryLoad m =>
      -- the owner is told 0 as well, which is `false`
      if s.takenThread m = some t then some (s.moveTo t (.tryReturn m false))
      else some (s.moveTo t (.tryExchange m))
  | .tryExchange m => some (s.exchange t m (.tryStore m) (.tryReturn m false))
  | .tryStore m => some (s.storeThread t m (some t) (.tryReturn m true))
  | .tryReturn _ _ => some (s.moveTo t .idle)
  | .unlockSpin m => some (s.acquireSpin t m (.unlockStore m))
  | .unlockStore m =>
      some <| ({ s with taken := Function.update s.taken m false }.setDepth t m
        (s.depth m t - 1)).moveTo t (.unlockDequeue m)
  | .unlockDequeue m =>
      match s.waiters m with
      | [] => some (s.moveTo t (.unlockRelease m none))
      | u :: rest =>
          some <| { s with waiters := Function.update s.waiters m rest }.moveTo t
            (.unlockRelease m (some u))
  | .unlockRelease m entry => some (s.releaseSpin t m (.unlockClear m entry))
  | .unlockClear m entry => some (s.storeThread t m none (.unlockWake entry))
  | .unlockWake none => some (s.moveTo t .idle)
  | .unlockWake (some u) =>
      some <| { s with semaphore := Function.update s.semaphore u (s.semaphore u + 1) }.moveTo t
        .idle

/-- A thread calls a function. -/
def call (first : Phase τ μ) : Option (State τ μ) :=
  match s.phase t with
  | .idle => some (s.moveTo t first)
  | _ => none

def step (s : State τ μ) : Event τ μ → Option (State τ μ)
  | .lock t m => s.call t (.lockLoad m)
  | .trylock t m => s.call t (.tryLoad m)
  | .unlock t m => s.call t (.unlockSpin m)
  | .advance t => s.advance t

/-- Threads unlock only what they hold. -/
def HolderUnlocks (s : State τ μ) : Event τ μ → Prop
  | .unlock t m => 0 < s.depth m t
  | _ => True

instance (s : State τ μ) (e : Event τ μ) : Decidable (s.HolderUnlocks e) :=
  match e with
  | .unlock t m => inferInstanceAs (Decidable (0 < s.depth m t))
  | .lock _ _ => isTrue trivial
  | .trylock _ _ => isTrue trivial
  | .advance _ => isTrue trivial

end State

/-! ## What a recursive mutex is -/

namespace Phase

variable {τ μ : Type}

/-- The thread found the mutex taken by another, as it thought, and has not got it since. -/
def WaitsFor (m : μ) : Phase τ μ → Prop
  | lockSpin m' => m' = m
  | lockExchange m' => m' = m
  | lockEnqueue m' => m' = m
  | lockRelease m' => m' = m
  | lockSleep m' => m' = m
  | _ => False

end Phase

namespace State

variable {τ μ : Type}

/-- A thread that has locked a mutex more often than unlocked it is the only one; the mutex can be
taken exactly when there is none; locking again does not block, and trying again does not fail. -/
structure Recursive (s : State τ μ) : Prop where
  only : ∀ m t u, 0 < s.depth m t → 0 < s.depth m u → t = u
  available : ∀ m, s.taken m = false ↔ ∀ t, s.depth m t = 0
  nested : ∀ m t, 0 < s.depth m t → ¬(s.phase t).WaitsFor m
  tries : ∀ m t, 0 < s.depth m t → s.phase t ≠ .tryReturn m false

/-- The conditions, at the steps that depend on them: the load of `lock`, the load and the exchange
of `trylock`, and the store of `unlock`. -/
def Careful (s : State τ μ) : Event τ μ → Prop
  | .advance t =>
      match s.phase t with
      | .lockLoad m => 0 < s.depth m t → s.takenThread m = some t
      | .tryLoad m => s.takenThread m ≠ some t
      | .tryExchange m => s.depth m t = 0
      | .unlockStore m => s.depth m t = 1
      | _ => True
  | _ => True

end State

/-! ## Careful steps keep it -/

namespace Phase

variable {τ μ : Type}

/-- What the phase of a thread says about its depths. -/
def Fits (depth : μ → Nat) : Phase τ μ → Prop
  | lockSpin m => depth m = 0
  | lockExchange m => depth m = 0
  | lockEnqueue m => depth m = 0
  | lockRelease m => depth m = 0
  | lockSleep m => depth m = 0
  | tryReturn m false => depth m = 0
  | lockUnspin m => 0 < depth m
  | lockStore m => 0 < depth m
  | tryStore m => 0 < depth m
  | unlockSpin m => 0 < depth m
  | unlockStore m => 0 < depth m
  | _ => True

/-- The thread has given the mutex back and has still to clear its id. -/
def Clears (m : μ) : Phase τ μ → Prop
  | unlockDequeue m' => m' = m
  | unlockRelease m' _ => m' = m
  | unlockClear m' _ => m' = m
  | _ => False

theorem Fits.of_waitsFor {depth : μ → Nat} {m : μ} {p : Phase τ μ} (fits : p.Fits depth)
    (waits : p.WaitsFor m) : depth m = 0 := by
  cases p
  case lockSpin | lockExchange | lockEnqueue | lockRelease | lockSleep =>
    cases waits
    exact fits
  all_goals cases waits

end Phase

namespace State

variable {τ μ : Type}

structure Inv (s : State τ μ) : Prop where
  only : ∀ m t u, 0 < s.depth m t → 0 < s.depth m u → t = u
  available : ∀ m, s.taken m = false ↔ ∀ t, s.depth m t = 0
  fits : ∀ t, (s.phase t).Fits fun m => s.depth m t
  stored : ∀ m t, s.takenThread m = some t → 0 < s.depth m t ∨ (s.phase t).Clears m

namespace Inv

theorem initial : Inv (State.initial : State τ μ) := by
  constructor <;> simp [State.initial, Phase.Fits]

variable {s s' : State τ μ} {t : τ} {m : μ} {p : Phase τ μ}

theorem recursive (h : Inv s) : s.Recursive where
  only := h.only
  available := h.available
  nested m t owner waits := Nat.ne_of_gt owner ((h.fits t).of_waitsFor waits)
  tries m t owner failed := by
    have fits := h.fits t
    rw [failed] at fits
    exact Nat.ne_of_gt owner fits

theorem taken_of_depth (h : Inv s) (owner : 0 < s.depth m t) : s.taken m = true := by
  cases taken : s.taken m with
  | true => rfl
  | false => exact absurd ((h.available m).mp taken t) (Nat.ne_of_gt owner)

/-- An owner leaves nothing to the others. -/
theorem others (h : Inv s) (owner : 0 < s.depth m t) (u : τ) (other : u ≠ t) :
    s.depth m u = 0 := by
  by_contra some
  exact other (h.only m u t (Nat.pos_of_ne_zero some) owner)

variable [DecidableEq τ]

theorem fits_update (h : Inv s) (fits : p.Fits fun m => s.depth m t) :
    ∀ u, (Function.update s.phase t p u).Fits fun m => s.depth m u := by
  rw [Function.forall_update_iff s.phase fun u q => q.Fits fun m => s.depth m u]
  exact ⟨fits, fun u _ => h.fits u⟩

/-- A step that changes only the phase, and what the invariant does not speak about. -/
theorem moveTo (h : Inv s) (fits : p.Fits fun m => s.depth m t)
    (clears : ∀ m, (s.phase t).Clears m → p.Clears m) : Inv (s.moveTo t p) where
  only := h.only
  available := h.available
  fits := h.fits_update fits
  stored m u is := by
    refine (h.stored m u is).imp_right ?_
    intro clearing
    by_cases same : u = t
    · subst same
      simpa using clears m clearing
    · simpa [same] using clearing

theorem call (h : Inv s) (run : s.call t p = some s') (fits : p.Fits fun m => s.depth m t) :
    Inv s' := by
  simp only [State.call] at run
  cases here : s.phase t <;> rw [here] at run
  case idle =>
    cases run
    exact h.moveTo fits (by rw [here]; nofun)
  all_goals cases run

variable [DecidableEq μ]

/-- The depths of one thread, after those of one mutex have been changed. -/
theorem setDepth_row (s : State τ μ) (t u : τ) (m : μ) (n : Nat) :
    (fun m' => (s.setDepth t m n).depth m' u) =
      Function.update (fun m' => s.depth m' u) m (Function.update (s.depth m) t n u) := by
  funext m'
  exact Function.apply_update (fun _ (row : τ → Nat) => row u) s.depth m _ m'

/-- The depth of a thread at a mutex that no other thread holds is changed, and `taken` with it. -/
theorem setDepth (h : Inv s) {n : Nat} {taken : Bool} (alone : ∀ u, u ≠ t → s.depth m u = 0)
    (iff : taken = true ↔ 0 < n)
    (fits : p.Fits (Function.update (fun m => s.depth m t) m n))
    (stored : s.takenThread m = some t → 0 < n ∨ p.Clears m)
    (clears : ∀ m, ¬(s.phase t).Clears m) :
    Inv (({ s with taken := Function.update s.taken m taken }.setDepth t m n).moveTo t p) where
  only m' u v hu hv := by
    by_cases at' : m' = m
    · subst at'
      by_cases hut : u = t <;> by_cases hvt : v = t <;>
        simp_all [State.setDepth]
    · simp only [State.setDepth, moveTo_depth, Function.update_of_ne at'] at hu hv
      exact h.only m' u v hu hv
  available m' := by
    by_cases at' : m' = m
    · subst at'
      simp only [State.setDepth, moveTo_taken, moveTo_depth, Function.update_self]
      constructor
      · rintro rfl u
        by_cases same : u = t
        · subst same
          simpa using iff
        · simpa [same] using alone u same
      · intro zero
        have none := zero t
        rw [Function.update_self] at none
        simpa [none] using iff
    · simpa [State.setDepth, at'] using h.available m'
  fits := by
    refine (Function.forall_update_iff s.phase fun u q => q.Fits fun m' =>
      ({ s with taken := Function.update s.taken m taken }.setDepth t m n).depth m' u).mpr ⟨?_, ?_⟩
    · rw [setDepth_row, Function.update_self]
      exact fits
    · intro u other
      rw [setDepth_row, Function.update_of_ne other, Function.update_eq_self]
      exact h.fits u
  stored m' u is := by
    have before := h.stored m' u is
    by_cases same : u = t
    · subst same
      have owner := before.resolve_right (clears m')
      by_cases at' : m' = m
      · subst at'
        simpa [State.setDepth] using stored is
      · simpa [State.setDepth, at'] using .inl owner
    · by_cases at' : m' = m
      · subst at'
        simpa [State.setDepth, same] using before
      · simpa [State.setDepth, same, at'] using before

theorem acquireSpin (h : Inv s) (fits : p.Fits fun m => s.depth m t)
    (clears : ∀ m, ¬(s.phase t).Clears m) : Inv (s.acquireSpin t m p) := by
  have frame : Inv { s with spin := Function.update s.spin m true } := ⟨h.1, h.2, h.3, h.4⟩
  rw [State.acquireSpin]
  split
  · exact frame.moveTo (h.fits t) (fun _ same => same)
  · exact frame.moveTo fits (fun m' same => absurd same (clears m'))

theorem releaseSpin (h : Inv s) (fits : p.Fits fun m => s.depth m t)
    (clears : ∀ m, (s.phase t).Clears m → p.Clears m) : Inv (s.releaseSpin t m p) := by
  have frame : Inv { s with spin := Function.update s.spin m false } := ⟨h.1, h.2, h.3, h.4⟩
  exact frame.moveTo fits clears

theorem exchange (h : Inv s) {q : Phase τ μ} (zero : s.depth m t = 0)
    (success : p.Fits (Function.update (fun m => s.depth m t) m 1))
    (failure : q.Fits fun m => s.depth m t) (clears : ∀ m, ¬(s.phase t).Clears m) :
    Inv (s.exchange t m p q) := by
  rw [State.exchange]
  split
  next => exact h.moveTo failure (fun m' same => absurd same (clears m'))
  next free =>
    have all := (h.available m).mp (Bool.eq_false_iff.mpr free)
    rw [zero]
    exact h.setDepth (fun u _ => all u) (by decide) success (fun _ => .inl Nat.one_pos) clears

theorem storeThread (h : Inv s) {thread : Option τ} (fits : p.Fits fun m => s.depth m t)
    (mine : ∀ u, thread = some u → 0 < s.depth m u)
    (clears : ∀ m', m' ≠ m → ¬(s.phase t).Clears m') : Inv (s.storeThread t m thread p) where
  only := h.only
  available := h.available
  fits := h.fits_update fits
  stored m' u is := by
    by_cases at' : m' = m
    · subst at'
      refine .inl (mine u ?_)
      simpa [State.storeThread] using is
    · have before : s.takenThread m' = some u := by simpa [State.storeThread, at'] using is
      refine (h.stored m' u before).imp_right ?_
      intro clearing
      by_cases same : u = t
      · subst same
        exact absurd clearing (clears m' at')
      · simpa [State.storeThread, same] using clearing

omit [DecidableEq τ] [DecidableEq μ] in
/-- The invariant leaves the queues and the semaphores free. -/
theorem frame (h : Inv s) (waiters : μ → List τ) (semaphore : τ → Nat) :
    Inv { s with waiters := waiters, semaphore := semaphore } :=
  ⟨h.only, h.available, h.fits, h.stored⟩

/-- Step lemma for the functions' steps. -/
theorem advance (h : Inv s) (careful : s.Careful (.advance t)) (run : s.advance t = some s') :
    Inv s' := by
  have fits := h.fits t
  simp only [State.advance] at run
  simp only [Careful] at careful
  cases here : s.phase t <;> simp only [here] at run careful fits
  case idle => cases run
  case lockLoad m =>
    split at run
    next own =>
      cases run
      have owner := (h.stored m t own).resolve_right (by rw [here]; exact id)
      have next := h.setDepth (p := .idle) (h.others owner)
        (by simp : true = true ↔ 0 < s.depth m t + 1) trivial
        (fun _ => .inl (Nat.succ_pos _)) (by rw [here]; exact fun _ => id)
      rwa [← h.taken_of_depth owner, Function.update_eq_self] at next
    next foreign =>
      cases run
      exact h.moveTo (Nat.eq_zero_of_not_pos (fun owner => foreign (careful owner)))
        (by rw [here]; nofun)
  case lockSpin | unlockSpin =>
    cases run
    exact h.acquireSpin fits (by rw [here]; exact fun _ => id)
  case lockExchange m =>
    cases run
    exact h.exchange fits (by simp [Phase.Fits]) fits (by rw [here]; exact fun _ => id)
  case tryExchange m =>
    cases run
    exact h.exchange careful (by simp [Phase.Fits]) careful (by rw [here]; exact fun _ => id)
  case lockUnspin | lockRelease =>
    cases run
    exact h.releaseSpin fits (by rw [here]; nofun)
  case unlockRelease =>
    cases run
    exact h.releaseSpin trivial (by rw [here]; exact fun _ => id)
  case lockStore m | tryStore m =>
    cases run
    refine h.storeThread trivial ?_ (by rw [here]; exact fun _ _ => id)
    rintro u ⟨⟩
    exact fits
  case unlockClear m entry =>
    cases run
    refine h.storeThread trivial nofun ?_
    intro m' other clearing
    rw [here] at clearing
    exact other clearing.symm
  case lockEnqueue m =>
    cases run
    exact (h.frame _ s.semaphore).moveTo fits (by rw [here]; nofun)
  case lockSleep m =>
    obtain ⟨-, ⟨⟩⟩ := Option.ite_none_right_eq_some.mp run
    exact (h.frame s.waiters _).moveTo fits (by rw [here]; nofun)
  case tryLoad m =>
    rw [if_neg careful] at run
    cases run
    exact h.moveTo trivial (by rw [here]; nofun)
  case tryReturn =>
    cases run
    exact h.moveTo trivial (by rw [here]; nofun)
  case unlockStore m =>
    cases run
    have owner : 0 < s.depth m t := fits
    have zero : s.depth m t - 1 = 0 := by rw [careful]
    rw [zero]
    exact h.setDepth (h.others owner) (by simp) trivial (fun _ => .inr rfl)
      (by rw [here]; exact fun _ => id)
  case unlockDequeue m =>
    cases queue : s.waiters m with
    | nil =>
        simp only [queue] at run
        cases run
        exact h.moveTo trivial (by rw [here]; exact fun _ => id)
    | cons u rest =>
        simp only [queue] at run
        cases run
        exact (h.frame _ s.semaphore).moveTo trivial (by rw [here]; exact fun _ => id)
  case unlockWake entry =>
    cases entry with
    | none =>
        cases run
        exact h.moveTo trivial (by rw [here]; nofun)
    | some u =>
        cases run
        exact (h.frame s.waiters _).moveTo trivial (by rw [here]; nofun)

/-- Step lemma. -/
theorem step {e : Event τ μ} (h : Inv s) (holder : s.HolderUnlocks e) (careful : s.Careful e)
    (run : s.step e = some s') : Inv s' := by
  cases e with
  | lock t m => exact h.call run trivial
  | trylock t m => exact h.call run trivial
  | unlock t m => exact h.call run holder
  | advance t => exact h.advance careful run

/-- A step after which the mutex is still a recursive one was careful. -/
theorem careful {e : Event τ μ} (h : Inv s) (run : s.step e = some s') (kept : s'.Recursive) :
    s.Careful e := by
  cases e with
  | lock t m => trivial
  | trylock t m => trivial
  | unlock t m => trivial
  | advance t =>
      have fits := h.fits t
      simp only [State.step, State.advance] at run
      simp only [Careful]
      cases here : s.phase t <;> simp only [here] at run fits
      case lockLoad m =>
        intro owner
        by_contra foreign
        rw [if_neg foreign] at run
        cases run
        exact kept.nested m t owner (by simp [Phase.WaitsFor])
      case tryLoad m =>
        intro own
        rw [if_pos own] at run
        cases run
        have owner := (h.stored m t own).resolve_right (by rw [here]; exact id)
        exact kept.tries m t owner (by simp)
      case tryExchange m =>
        by_contra some
        have owner := Nat.pos_of_ne_zero some
        simp only [State.exchange, h.taken_of_depth owner, if_true] at run
        cases run
        exact kept.tries m t owner (by simp)
      case unlockStore m =>
        cases run
        have left := (kept.available m).mp (by simp [State.setDepth]) t
        have owner : 0 < s.depth m t := fits
        simp only [State.setDepth, moveTo_depth, Function.update_self] at left
        omega
      all_goals trivial

end Inv

end State

/-- For any number of threads and mutexes and any interleaving, with threads unlocking only what
they hold: the mutexes are recursive ones in every state of a run exactly if every step of it
meets the conditions. -/
theorem recursive_in_every_state_iff_careful {τ μ : Type} [DecidableEq τ] [DecidableEq μ]
    (events : List (Event τ μ)) (s : State τ μ) :
    (State.initial : State τ μ).Recursive ∧
      (Run (fun s e s' => Within State.HolderUnlocks State.step s e s' ∧ s'.Recursive)
          State.initial events s ↔
        Run (Within (fun s e => s.HolderUnlocks e ∧ s.Careful e) State.step)
          State.initial events s) := by
  refine ⟨State.Inv.initial.recursive, ?_⟩
  refine Run.iff_of_invariant State.Inv ?_ ?_ State.Inv.initial
  · rintro s e s' h ⟨⟨holder, run⟩, kept⟩
    exact h.step holder (h.careful run kept) run
  · intro s e s' h
    constructor
    · rintro ⟨⟨holder, run⟩, kept⟩
      exact ⟨⟨holder, h.careful run kept⟩, run⟩
    · rintro ⟨⟨holder, careful⟩, run⟩
      exact ⟨⟨holder, run⟩, (h.step holder careful run).recursive⟩

/-- One thread locks twice and unlocks once, then the other tries. -/
def sampleEarlyRelease : List (Event Bool Unit) :=
  [[.lock true ()], List.replicate 5 (.advance true), [.lock true (), .advance true],
    [.unlock true ()], List.replicate 6 (.advance true),
    [.trylock false ()], List.replicate 4 (.advance false)].flatten

/-- The owner tries again. -/
def sampleOwnerTries : List (Event Bool Unit) :=
  [[.lock true ()], List.replicate 5 (.advance true), [.trylock true (), .advance true]].flatten

/-- One thread gives the mutex back and the other takes it before the first clears its id; then
the second locks again. -/
def sampleClearedOwner : List (Event Bool Unit) :=
  [[.lock false ()], List.replicate 5 (.advance false),
    [.unlock false ()], List.replicate 4 (.advance false),
    [.lock true ()], List.replicate 5 (.advance true), List.replicate 2 (.advance false),
    [.lock true ()], List.replicate 5 (.advance true)].flatten

/-- After one of two unlocks another thread gets the mutex; the owner's `trylock` fails; the owner
sleeps in a second `lock`, and nobody else is doing anything. -/
theorem recursive_mutex_failures :
    (∃ s : State Bool Unit,
      Run (Within State.HolderUnlocks State.step) State.initial sampleEarlyRelease s ∧
        s.depth () true = 1 ∧ s.depth () false = 1 ∧ ¬s.Recursive) ∧
    (∃ s : State Bool Unit,
      Run (Within State.HolderUnlocks State.step) State.initial sampleOwnerTries s ∧
        s.depth () true = 1 ∧ s.phase true = .tryReturn () false ∧ ¬s.Recursive) ∧
    (∃ s : State Bool Unit,
      Run (Within State.HolderUnlocks State.step) State.initial sampleClearedOwner s ∧
        s.depth () true = 1 ∧ s.phase true = .lockSleep () ∧
        s.semaphore true = 0 ∧ s.phase false = .idle ∧ ¬s.Recursive) := by
  refine ⟨?_, ?_, ?_⟩
  · have done : (simulate State.HolderUnlocks State.step sampleEarlyRelease State.initial).map
        (fun s => (s.depth () true, s.depth () false)) = some (1, 1) := by decide +kernel
    obtain ⟨s, hs, seen⟩ := Option.map_eq_some_iff.mp done
    obtain ⟨mine, other⟩ := Prod.mk.inj seen
    refine ⟨s, simulate_run hs, mine, other, ?_⟩
    intro recursive
    have same := recursive.only () true false (mine ▸ Nat.one_pos) (other ▸ Nat.one_pos)
    cases same
  · have done : (simulate State.HolderUnlocks State.step sampleOwnerTries State.initial).map
        (fun s => (s.depth () true, s.phase true)) = some (1, .tryReturn () false) := by
      decide +kernel
    obtain ⟨s, hs, seen⟩ := Option.map_eq_some_iff.mp done
    obtain ⟨mine, failed⟩ := Prod.mk.inj seen
    refine ⟨s, simulate_run hs, mine, failed, ?_⟩
    intro recursive
    exact recursive.tries () true (mine ▸ Nat.one_pos) failed
  · have done : (simulate State.HolderUnlocks State.step sampleClearedOwner State.initial).map
        (fun s => (s.depth () true, s.phase true, s.semaphore true, s.phase false)) =
        some (1, .lockSleep (), 0, .idle) := by decide +kernel
    obtain ⟨s, hs, seen⟩ := Option.map_eq_some_iff.mp done
    simp only [Prod.mk.injEq] at seen
    obtain ⟨mine, sleeping, zero, idle⟩ := seen
    refine ⟨s, simulate_run hs, mine, sleeping, zero, idle, ?_⟩
    intro recursive
    refine recursive.nested () true (mine ▸ Nat.one_pos) ?_
    rw [sleeping]
    rfl

end Monza.RecursiveMutex
