import Monza.Lib.Exclusion
import Monza.Threads.HandoverOnce

/-!
# Calls of `add_thread` that choose different cores

Any number of threads may be in `add_thread`. A call chooses a core when it finds it done, and
nothing keeps others from choosing it too until the core itself clears the flag. Here the calls are
careful: they only find a core done for which nothing is stored and which no other call has chosen.
A chosen core then stays ready until the call has stored its function.
-/

namespace Monza.Handover

open Transition

namespace Thread

variable {φ α : Type}

/-- The core whose flag the call loads next. -/
def loads : Thread φ α → Option Nat
  | addLoad i _ _ => some i
  | _ => none

/-- The call has found the core done, and has not stored its function yet. -/
def chooses (c : Nat) : Thread φ α → Bool
  | addArg i _ _ => i = c
  | addCode i _ _ => i = c
  | _ => false

/-- What the thread knows depends on the core. -/
def Relies (c : Nat) : Thread φ α → Prop
  | initLoop i => i ≤ c
  | initArg i => i ≤ c
  | initCode i => i ≤ c
  | initReset i => i ≤ c
  | addArg i _ _ => i = c
  | addCode i _ _ => i = c
  | _ => False

end Thread

namespace State

variable {φ α : Type} {P : Platform φ α}

/-- A call that finds a core done finds nothing stored for it, and no other call that has chosen
it. -/
def Careful (P : Platform φ α) (s : State φ α) : Event φ α → Prop
  | .thread w =>
      ∀ i ∈ (s.thread w).loads, (s.context i).done = 1 →
        (s.context i).codePtr.isNone ∧ ∀ u < P.cores, (s.thread u).chooses i = false
  | _ => True

instance (s : State φ α) (e : Event φ α) : Decidable (s.Careful P e) :=
  match e with
  | .add _ _ _ => isTrue trivial
  | .exit => isTrue trivial
  | .core _ => isTrue trivial
  | .thread w => inferInstanceAs (Decidable (∀ i ∈ (s.thread w).loads, (s.context i).done = 1 →
      (s.context i).codePtr.isNone ∧ ∀ u < P.cores, (s.thread u).chooses i = false))

structure Reserved (P : Platform φ α) (s : State φ α) : Prop where
  bounded : ∀ u, (s.thread u).active = true → u < P.cores
  sound : ∀ c, s.Sound c
  placed : ∀ w, (s.thread w).Placed P w
  thread : ∀ w, s.ThreadFits P (s.thread w)
  exclusive : ∀ c, Exclusive (fun p => Thread.chooses c p = true) s.thread

variable {s s' : State φ α} {c i w : Nat} {p : Thread φ α}

/-- A thread knows the same as long as nothing changes at the cores it relies on. -/
theorem ThreadFits.frame (fits : s.ThreadFits P p) (same : ∀ c, p.Relies c → SameAt s s' c) :
    s'.ThreadFits P p := by
  have untouched : ∀ c, p.Relies c → s.Untouched c → s'.Untouched c := by
    rintro c relies ⟨off, code, posted⟩
    have eq := same c relies
    exact ⟨eq.core ▸ off, eq.context ▸ code, eq.posted ▸ posted⟩
  cases p
  case initLoop i | initArg i => exact fun c le => untouched c le (fits c le)
  case initCode i =>
    refine ⟨fun c le => untouched c le (fits.1 c le), ?_⟩
    rw [(same i (Nat.le_refl i)).context]
    exact fits.2
  case initReset i =>
    refine ⟨fun c lt => untouched c (Nat.le_of_lt lt) (fits.1 c lt), ?_⟩
    rw [(same i (Nat.le_refl i)).core]
    exact fits.2
  case addArg i f a | addCode i f a =>
    simp only [ThreadFits, Ready, (same i rfl).context] at fits ⊢
    exact fits
  all_goals exact fits

/-- Only a call that has chosen a core relies on it when it is ready. -/
theorem ThreadFits.chooses_of_ready (fits : s.ThreadFits P p) (sound : s.Sound c)
    (ready : s.Ready c) (relies : p.Relies c) : p.chooses c = true := by
  have touched : ¬ s.Untouched c := fun h => sound.posted_of_ready ready h.2.2
  cases p
  case initLoop i | initArg i => exact absurd (fits c relies) touched
  case initCode i => exact absurd (fits.1 c relies) touched
  case initReset i =>
    obtain lt | rfl := Nat.lt_or_eq_of_le relies
    · exact absurd (fits.1 c lt) touched
    · have done := sound.done_of_off fits.2
      rw [ready.1] at done
      cases done
  case addArg i f a | addCode i f a => exact decide_eq_true relies
  all_goals exact relies.elim

/-- Only the main thread relies on a core that is off. -/
theorem ThreadFits.main_of_off (fits : s.ThreadFits P p) (sound : s.Sound c)
    (off : s.core c = .off) (placed : p.Placed P w) (relies : p.Relies c) : w = 0 := by
  have busy : ¬ s.Ready c := by
    intro ready
    have done := sound.done_of_off off
    rw [ready.1] at done
    cases done
  cases p
  case initLoop i | initArg i | initCode i | initReset i => exact placed.1
  case addArg i f a =>
    obtain rfl : i = c := relies
    exact absurd fits.2 busy
  case addCode i f a =>
    obtain rfl : i = c := relies
    exact absurd fits.2.1 busy
  all_goals exact relies.elim

/-- What is left to show for a step of a thread. -/
theorem Reserved.of_thread (h : Reserved P s) (thread : s'.thread = Function.update s.thread w p)
    (same : ∀ u, u ≠ w → ∀ c, (s.thread u).Relies c → SameAt s s' c) (sound : ∀ c, s'.Sound c)
    (bounded : p.active = true → w < P.cores) (placed : p.Placed P w)
    (fits : s'.ThreadFits P p)
    (chooses : ∀ c, p.chooses c = true →
      (s.thread w).chooses c = true ∨ ∀ u, u ≠ w → ¬ (s.thread u).chooses c = true) :
    Reserved P s' := by
  refine ⟨?_, sound, ?_, ?_, ?_⟩
  · rw [thread]
    exact (Function.forall_update_iff s.thread fun u q => q.active = true → u < P.cores).mpr
      ⟨bounded, fun u _ => h.bounded u⟩
  · rw [thread]
    exact (Function.forall_update_iff s.thread fun u q => q.Placed P u).mpr
      ⟨placed, fun u _ => h.placed u⟩
  · rw [thread]
    exact (Function.forall_update_iff s.thread fun _ q => s'.ThreadFits P q).mpr
      ⟨fits, fun u ne => (h.thread u).frame (same u ne)⟩
  · intro c
    rw [thread]
    exact (h.exclusive c).update (chooses c)

/-- A step that only moves the thread, which has not chosen a core after it. -/
theorem Reserved.moveThread (h : Reserved P s) (thread : s'.thread = Function.update s.thread w p)
    (same : ∀ c, SameAt s s' c) (bounded : p.active = false ∨ w < P.cores) (placed : p.Placed P w)
    (fits : s.ThreadFits P p) (free : ∀ c, p.chooses c = false) : Reserved P s' := by
  refine h.of_thread thread (fun _ _ c _ => same c) (fun c => (same c).sound (h.sound c)) ?_ placed
    (fits.frame fun c _ => same c) ?_
  · intro active
    exact bounded.resolve_left (Bool.not_eq_false _ ▸ active)
  · intro c chosen
    rw [free c] at chosen
    cases chosen

/-- A step of a thread that changes one core, on which no other relies. -/
theorem Reserved.of_thread_at (h : Reserved P s) (i : Nat)
    (thread : s'.thread = Function.update s.thread w p)
    (elsewhere : ∀ c, c ≠ i → SameAt s s' c) (others : ∀ u, u ≠ w → ¬ (s.thread u).Relies i)
    (sound : s'.Sound i) (bounded : w < P.cores) (placed : p.Placed P w)
    (fits : s'.ThreadFits P p)
    (chooses : ∀ c, p.chooses c = false ∨ (s.thread w).chooses c = true) : Reserved P s' := by
  refine h.of_thread thread ?_ ?_ (fun _ => bounded) placed fits ?_
  · intro u ne c relies
    exact elsewhere c fun eq => others u ne (eq ▸ relies)
  · intro c
    by_cases same : c = i
    · exact same ▸ sound
    · exact (elsewhere c same).sound (h.sound c)
  · intro c now
    refine .inl ((chooses c).resolve_left ?_)
    rw [now]
    exact Bool.true_eq_false.mp

theorem Reserved.others_of_chosen (h : Reserved P s) (mine : (s.thread w).chooses i = true)
    (ready : s.Ready i) (u : Nat) (ne : u ≠ w) : ¬ (s.thread u).Relies i := by
  intro relies
  have theirs := (h.thread u).chooses_of_ready (h.sound i) ready relies
  exact (h.exclusive i).not_of_ne mine ne theirs

theorem Reserved.others_of_off (h : Reserved P s) (main : w = 0) (off : s.core i = .off) (u : Nat)
    (ne : u ≠ w) : ¬ (s.thread u).Relies i := by
  intro relies
  exact ne (((h.thread u).main_of_off (h.sound i) off (h.placed u) relies).trans main.symm)

/-! ## Steps -/

theorem Reserved.stepCore (h : Reserved P s) (run : s.stepCore c = some s') : Reserved P s' := by
  have m := stepCore_moved (h.sound c) run
  refine ⟨?_, m.sound h.sound, ?_, ?_, ?_⟩
  · rw [m.thread]
    exact h.bounded
  · rw [m.thread]
    exact h.placed
  · rw [m.thread]
    exact fun w => m.threadFits (h.thread w)
  · rw [m.thread]
    exact h.exclusive

theorem Reserved.initArg (h : Reserved P s) (here : s.thread w = .initArg i) :
    Reserved P
      ((s.setContext i { s.context i with arg := P.pointer i }).setThread w (.initCode i)) := by
  have fits := h.thread w
  have placed := h.placed w
  rw [here] at fits placed
  obtain ⟨off, none, -⟩ := fits i (Nat.le_refl i)
  refine h.of_thread_at i rfl (fun c ne => by constructor <;> simp [ne])
    (h.others_of_off placed.1 off) (((h.sound i).storeArg (.inl off) none _).setThread w _)
    (h.bounded w (by rw [here]; rfl)) placed ⟨?_, by simp⟩ (fun _ => .inl rfl)
  intro c le
  obtain ⟨off, none, posted⟩ := fits c le
  refine ⟨off, ?_, posted⟩
  by_cases same : c = i
  · subst same
    simpa using none
  · simpa [same] using none

theorem Reserved.initCode (h : Reserved P s) (here : s.thread w = .initCode i) :
    Reserved P ((s.storeCode i P.coreInitializer).setThread w (.initReset i)) := by
  have fits := h.thread w
  have placed := h.placed w
  rw [here] at fits placed
  obtain ⟨off, none, -⟩ := fits.1 i (Nat.le_refl i)
  refine h.of_thread_at i rfl (fun c ne => by constructor <;> simp [ne])
    (h.others_of_off placed.1 off) (((h.sound i).storeCode (.inl off) none _).setThread w _)
    (h.bounded w (by rw [here]; rfl)) placed ⟨?_, off⟩ (fun _ => .inl rfl)
  intro c lt
  have ne : c ≠ i := Nat.ne_of_gt lt
  simpa [Untouched, ne] using fits.1 c (Nat.le_of_lt lt)

theorem Reserved.initReset (h : Reserved P s) (here : s.thread w = .initReset i) :
    Reserved P ((s.setCore i .start).setThread w (.initLoop (i + 1))) := by
  have fits := h.thread w
  have placed := h.placed w
  rw [here] at fits placed
  refine h.of_thread_at i rfl (fun c ne => by constructor <;> simp [ne])
    (h.others_of_off placed.1 fits.2) (((h.sound i).resetCore fits.2).setThread w _)
    (h.bounded w (by rw [here]; rfl)) ⟨placed.1, Nat.succ_pos i⟩ ?_ (fun _ => .inl rfl)
  intro c lt
  have ne : c ≠ i := Nat.ne_of_gt lt
  simpa [Untouched, ne] using fits.1 c lt

theorem Reserved.addArg (h : Reserved P s) {f : φ} {a : α} (here : s.thread w = .addArg i f a) :
    Reserved P ((s.setContext i { s.context i with arg := a }).setThread w (.addCode i f a)) := by
  have fits := h.thread w
  rw [here] at fits
  obtain ⟨usable, ready⟩ := fits
  have waits := (h.sound i).fits.waits_of_ready ready.1 ready.2
  have mine : (s.thread w).chooses i = true := by rw [here]; exact decide_eq_true rfl
  refine h.of_thread_at i rfl (fun c ne => by constructor <;> simp [ne])
    (h.others_of_chosen mine ready) (((h.sound i).storeArg waits ready.2 a).setThread w _)
    (h.bounded w (by rw [here]; rfl)) trivial ⟨usable, by simpa [Ready] using ready, by simp⟩ ?_
  intro c
  rw [here]
  exact (Bool.eq_false_or_eq_true _).symm

theorem Reserved.addCode (h : Reserved P s) {f : φ} {a : α} (here : s.thread w = .addCode i f a) :
    Reserved P ((s.storeCode i f).setThread w (.addWait i f a)) := by
  have fits := h.thread w
  rw [here] at fits
  obtain ⟨usable, ready, -⟩ := fits
  have waits := (h.sound i).fits.waits_of_ready ready.1 ready.2
  have mine : (s.thread w).chooses i = true := by rw [here]; exact decide_eq_true rfl
  exact h.of_thread_at i rfl (fun c ne => by constructor <;> simp [ne])
    (h.others_of_chosen mine ready) (((h.sound i).storeCode waits ready.2 f).setThread w _)
    (h.bounded w (by rw [here]; rfl)) trivial usable (fun _ => .inl rfl)

/-- A call chooses a core carefully. -/
theorem Reserved.addLoad (h : Reserved P s) {f : φ} {a : α} (here : s.thread w = .addLoad i f a)
    (careful : s.Careful P (.thread w)) (done : (s.context i).done = 1) :
    Reserved P (s.setThread w (.addArg i f a)) := by
  have fits := h.thread w
  rw [here] at fits
  obtain ⟨stored, free⟩ := careful i (by rw [here]; rfl) done
  have ready : s.Ready i := ⟨done, Option.isNone_iff_eq_none.mp stored⟩
  have same : ∀ c, SameAt s (s.setThread w (.addArg i f a)) c := fun _ => ⟨rfl, rfl, rfl, rfl, rfl⟩
  refine h.of_thread rfl (fun _ _ c _ => same c) (fun c => (same c).sound (h.sound c))
    (fun _ => h.bounded w (by rw [here]; rfl)) trivial ⟨fits, ready⟩ ?_
  intro c chosen
  obtain rfl : i = c := of_decide_eq_true chosen
  refine .inr ?_
  intro u _ theirs
  have active : (s.thread u).active = true := by
    cases at_ : s.thread u <;> rw [at_] at theirs
    case addArg | addCode => rfl
    all_goals cases theirs
  rw [free u (h.bounded u active)] at theirs
  cases theirs

/-- Step lemma for the threads. -/
theorem Reserved.stepThread (h : Reserved P s) (careful : s.Careful P (.thread w))
    (run : s.stepThread P w = some s') : Reserved P s' := by
  have fits := h.thread w
  have placed := h.placed w
  have bounded := h.bounded w
  simp only [State.stepThread] at run
  cases here : s.thread w <;>
    simp only [here, ThreadFits, Thread.Placed, Thread.active] at run fits placed bounded
  case idle | exited => cases run
  case initLoop i =>
    cases run
    split
    next lt =>
      exact h.moveThread rfl (fun _ => ⟨rfl, rfl, rfl, rfl, rfl⟩) (.inr (bounded trivial))
        ⟨placed.1, placed.2, lt⟩ fits (fun _ => rfl)
    next =>
      exact h.moveThread rfl (fun _ => ⟨rfl, rfl, rfl, rfl, rfl⟩) (.inr (bounded trivial))
        placed.1 trivial (fun _ => rfl)
  case initArg i =>
    cases run
    exact h.initArg here
  case initCode i =>
    cases run
    exact h.initCode here
  case initReset i =>
    cases run
    exact h.initReset here
  case waitLoop i =>
    cases run
    split
    · exact h.moveThread rfl (fun _ => ⟨rfl, rfl, rfl, rfl, rfl⟩) (.inr (bounded trivial))
        placed trivial (fun _ => rfl)
    · exact h.moveThread rfl (fun _ => ⟨rfl, rfl, rfl, rfl, rfl⟩) (.inl rfl) trivial trivial
        (fun _ => rfl)
  case waitDone i =>
    cases run
    split
    · exact h.moveThread rfl (fun _ => ⟨rfl, rfl, rfl, rfl, rfl⟩) (.inr (bounded trivial))
        placed trivial (fun _ => rfl)
    · exact h.moveThread rfl (fun _ => ⟨rfl, rfl, rfl, rfl, rfl⟩) (.inr (bounded trivial))
        placed trivial (fun _ => rfl)
  case addLoop i f a =>
    split at run
    next lt =>
      cases run
      exact h.moveThread rfl (fun _ => ⟨rfl, rfl, rfl, rfl, rfl⟩) (.inr (bounded trivial))
        trivial ⟨fits, lt⟩ (fun _ => rfl)
    next =>
      cases run
      exact h.moveThread rfl (fun _ => ⟨rfl, rfl, rfl, rfl, rfl⟩) (.inl rfl) trivial trivial
        (fun _ => rfl)
  case addLoad i f a =>
    cases run
    split
    next done => exact h.addLoad here careful done
    next =>
      exact h.moveThread rfl (fun _ => ⟨rfl, rfl, rfl, rfl, rfl⟩) (.inr (bounded trivial))
        trivial (Nat.succ_pos i) (fun _ => rfl)
  case addArg i f a =>
    cases run
    exact h.addArg here
  case addCode i f a =>
    cases run
    exact h.addCode here
  case addWait i f a =>
    split at run
    · cases run
      exact h.moveThread rfl (fun _ => ⟨rfl, rfl, rfl, rfl, rfl⟩) (.inr (bounded trivial))
        trivial fits (fun _ => rfl)
    · cases run
      exact h.moveThread rfl (fun _ => ⟨rfl, rfl, rfl, rfl, rfl⟩) (.inl rfl) trivial trivial
        (fun _ => rfl)
  case addPing i f a =>
    cases run
    exact h.moveThread rfl (fun _ => ⟨rfl, rfl, rfl, rfl, rfl⟩) (.inr (bounded trivial))
      trivial fits (fun _ => rfl)
  case exitDecrement =>
    cases run
    generalize sub64 s.executing 1 = executing
    exact h.moveThread rfl (fun _ => ⟨rfl, rfl, rfl, rfl, rfl⟩) (.inl rfl) placed trivial
      (fun _ => rfl)
  case exitWait =>
    cases run
    split
    · exact h.moveThread rfl (fun _ => ⟨rfl, rfl, rfl, rfl, rfl⟩) (.inl rfl) placed trivial
        (fun _ => rfl)
    · exact h.moveThread rfl (fun _ => ⟨rfl, rfl, rfl, rfl, rfl⟩) (.inl rfl) placed trivial
        (fun _ => rfl)

theorem reserved_initial : Reserved P (initial P) := by
  have inv : Inv P (initial P) := inv_initial
  refine ⟨inv.bounded, inv.sound, ?_, inv.thread, ?_⟩
  · intro w
    by_cases main : w = 0
    · simp [initial, main, Thread.Placed]
    · simp [initial, main, Thread.Placed]
  · intro c u v chosen
    simp only [initial] at chosen
    split at chosen <;> cases chosen

/-- Step lemma. -/
theorem Reserved.step {e : Event φ α} (h : Reserved P s)
    (next : Within (Careful P) (State.step P) s e s') : Reserved P s' := by
  obtain ⟨careful, run⟩ := next
  cases e with
  | add w f a =>
      simp only [State.step] at run
      split at run
      next =>
        obtain ⟨⟨lt, -⟩, ⟨⟩⟩ := Option.ite_none_right_eq_some.mp run
        exact h.moveThread rfl (fun _ => ⟨rfl, rfl, rfl, rfl, rfl⟩) (.inr lt) trivial
          Nat.one_pos (fun _ => rfl)
      next => cases run
  | exit =>
      simp only [State.step] at run
      split at run
      next =>
        cases run
        exact h.moveThread rfl (fun _ => ⟨rfl, rfl, rfl, rfl, rfl⟩) (.inl rfl) rfl trivial
          (fun _ => rfl)
      next => cases run
  | thread w => exact h.stepThread careful run
  | core c => exact h.stepCore run

end State

end Monza.Handover
