import Monza.Threads.Bringup

/-!
# The shared words are those of one core at a time

The shared words of `init_cpu_generic` are stored before the interrupt is sent. From then on no
other core has an interrupt pending or loads, and the main thread does not go on before the core has
set the flag, after its last load. So a core loads the words that were stored for it, and what it
finds through `gs` is its own.
-/

namespace Monza.Bringup

/-! ### What the steps of the hand-over leave alone -/

section Steps

variable {φ α : Type} {P : Handover.Platform φ α} {h h' : Handover.State φ α} {c w : Nat}

theorem stepThread_thread (run : h.stepThread P w = some h') (placed : (h.thread w).Placed P w) :
    ∃ p, h'.thread = Function.update h.thread w p ∧ p.Placed P w := by
  simp only [Handover.State.stepThread] at run
  cases here : h.thread w <;> simp only [here, Handover.Thread.Placed] at run placed
  case idle | exited => cases run
  case initLoop i =>
    cases run
    refine ⟨_, rfl, ?_⟩
    split
    next lt => exact ⟨placed.1, placed.2, lt⟩
    next => exact placed.1
  case initReset i =>
    cases run
    exact ⟨_, rfl, placed.1, Nat.succ_pos i⟩
  case addLoop i f a | addWait i f a =>
    split at run <;> cases run <;> exact ⟨_, rfl, trivial⟩
  case addLoad i f a =>
    cases run
    refine ⟨_, rfl, ?_⟩
    split <;> trivial
  case waitLoop i | waitDone i | exitWait =>
    cases run
    refine ⟨_, rfl, ?_⟩
    split <;> first | exact placed | trivial
  all_goals
    cases run
    exact ⟨_, rfl, placed⟩

/-- Only the step that starts a core changes where the cores are. -/
theorem stepThread_core (run : h.stepThread P w = some h')
    (other : ∀ i, h.thread w ≠ .initReset i) : h'.core = h.core := by
  simp only [Handover.State.stepThread] at run
  cases here : h.thread w <;> simp only [here] at run
  case idle | exited => cases run
  case initReset i => exact absurd here (other i)
  case addLoop | addWait => split at run <;> cases run <;> rfl
  case exitDecrement =>
    obtain rfl := Option.some.inj run
    exact funext (Handover.State.setThread_core _ _ _)
  all_goals
    cases run
    rfl

theorem stepCore_thread (run : h.stepCore c = some h') : h'.thread = h.thread := by
  simp only [Handover.State.stepCore] at run
  cases here : h.core c <;> simp only [here] at run
  case off => cases run
  case loop => split at run <;> cases run <;> rfl
  case running =>
    split at run
    · cases run
    · cases run
      rfl
  case increment | decrement =>
    obtain rfl := Option.some.inj run
    exact funext (Handover.State.setCore_thread _ _ _)
  all_goals
    cases run
    rfl
/-- A core that is off takes no step, and no core goes off. -/
theorem stepCore_off (run : h.stepCore c = some h') (d : Nat) :
    h'.core d = .off ↔ h.core d = .off := by
  have moved : ∃ p, h'.core = Function.update h.core c p ∧ p ≠ .off ∧ h.core c ≠ .off := by
    simp only [Handover.State.stepCore] at run
    cases here : h.core c <;> simp only [here] at run
    case off => cases run
    case loop => split at run <;> cases run <;> exact ⟨_, rfl, by simp, by simp⟩
    case running =>
      split at run
      · cases run
      · cases run
        exact ⟨_, rfl, by simp, by simp⟩
    case increment | decrement =>
      obtain rfl := Option.some.inj run
      exact ⟨_, funext (Handover.State.setCore_core _ _ _), by simp, by simp⟩
    all_goals
      cases run
      exact ⟨_, rfl, by simp, by simp⟩
  obtain ⟨p, core, on, was⟩ := moved
  rw [core]
  by_cases same : d = c
  · subst same
    simp [on, was]
  · rw [Function.update_of_ne same]

end Steps

/-! ### The invariant -/

namespace State

variable {φ α : Type} (P : Platform φ α) (s : State φ α)

/-- From this core on, none has had its interrupt. -/
def Fresh (i : Nat) : Prop := ∀ c, i ≤ c → s.boot c = .waiting

/-- The stack and the thread-local storage of the core are in its record. -/
def Saved (i : Nat) : Prop :=
  (s.record (P.address i)).stackPtr = P.stackPtr i ∧ (s.record (P.address i)).tlsPtr = P.tlsPtr i

/-- The shared words are those for the core. -/
def Published (i : Nat) : Prop :=
  s.words.cr0 = P.cr0 ∧ s.words.cr3 = P.cr3 ∧ s.words.cr4 = P.cr4 ∧ s.words.gs = P.address i

/-- The main thread is in `init_cpu_generic` for the core. -/
def Resetting (i : Nat) : Prop := s.handover.thread 0 = .initReset i ∧ s.Saved P i

/-- The core has an interrupt pending or loads. -/
def Busy (c : Nat) : Prop := s.pending c = true ∨ (s.boot c).loading = true

/-- The interrupt has been sent to the core. -/
structure Sent (i : Nat) : Prop where
  resetting : s.Resetting P i
  fresh : s.Fresh (i + 1)
  published : s.Published P i
  flag : s.words.finished ≠ 0 → (s.boot i).finished = true
  alive : s.words.finished = 0 → s.Busy i

/-- What holds where the main thread is in the hand-over. -/
def OutsideFits : Handover.Thread φ α → Prop
  | .initLoop i => s.Fresh i
  | .initArg i => s.Fresh i ∧ s.Saved P i
  | .initCode i => s.Fresh i ∧ s.Saved P i
  | .initReset _ => False
  | _ => True

/-- What holds where the main thread is. -/
def MainFits : Main → Prop
  | .outside => s.OutsideFits P (s.handover.thread 0)
  | .storeStack i => s.handover.thread 0 = .initArg i ∧ s.Fresh i
  | .storeTls i => s.handover.thread 0 = .initArg i ∧ s.Fresh i ∧
      (s.record (P.address i)).stackPtr = P.stackPtr i
  | .storeCr0 i => s.Resetting P i ∧ s.Fresh i
  | .storeCr3 i => s.Resetting P i ∧ s.Fresh i ∧ s.words.cr0 = P.cr0
  | .storeCr4 i => s.Resetting P i ∧ s.Fresh i ∧ s.words.cr0 = P.cr0 ∧ s.words.cr3 = P.cr3
  | .storeGs i => s.Resetting P i ∧ s.Fresh i ∧ s.words.cr0 = P.cr0 ∧ s.words.cr3 = P.cr3 ∧
      s.words.cr4 = P.cr4
  | .clearFinished i => s.Resetting P i ∧ s.Fresh i ∧ s.Published P i
  | .selectTarget i => s.Resetting P i ∧ s.Fresh i ∧ s.Published P i ∧ s.words.finished = 0
  | .sendIpi i => s.Resetting P i ∧ s.Fresh i ∧ s.Published P i ∧ s.words.finished = 0 ∧
      s.icrHigh = P.apicId i * 2 ^ 24
  | .waitSent i => s.Sent P i
  | .waitFinished i => s.Sent P i

end State

/-- What a core has loaded so far. -/
def BootFits {φ α : Type} (P : Platform φ α) (c : Nat) (r : Registers) : Boot → Prop
  | .waiting => True
  | .entered => True
  | .loadCr0 => True
  | .loadCr4 => r.cr0 = P.cr0
  | .loadGs => r.cr0 = P.cr0 ∧ r.cr4 = P.cr4
  | .loadTls => r.cr0 = P.cr0 ∧ r.cr4 = P.cr4 ∧ r.gs = P.address c
  | .loadStack => r.cr0 = P.cr0 ∧ r.cr4 = P.cr4 ∧ r.gs = P.address c ∧ r.fs = P.tlsPtr c
  | .installGdt => r.cr0 = P.cr0 ∧ r.cr4 = P.cr4 ∧ r.gs = P.address c ∧ r.fs = P.tlsPtr c ∧
      r.rsp = P.stackPtr c
  | .installIdt => { r with cr3 := P.cr3, idt := P.idt } = P.own c
  | .loadCr3 => { r with cr3 := P.cr3 } = P.own c
  | .setFinished => r = P.own c
  | .acknowledge => r = P.own c
  | .enableInterrupts => r = P.own c
  | .ready => r = P.own c
  | .restarted => False

namespace State

variable {φ α : Type} {P : Platform φ α} {s t : State φ α} {c i : Nat}

structure Inv (P : Platform φ α) (s : State φ α) : Prop where
  placed : ∀ w, (s.handover.thread w).Placed P.toPlatform w
  ids : ∀ i, (s.record (P.address i)).coreId = i
  main : s.MainFits P s.main
  target : ∀ c, s.Busy c → s.main = .waitSent c ∨ s.main = .waitFinished c
  pending : ∀ c, s.pending c = true → s.boot c = .waiting
  boot : ∀ c, BootFits P c (s.regs c) (s.boot c)
  core : ∀ c, s.boot c = .ready ∨ s.handover.core c = .off

/-- What the main thread relies on is left alone by the cores, other than that the one it waits for
moves on. -/
theorem MainFits.frame {m : Main} (fits : s.MainFits P m)
    (thread : t.handover.thread 0 = s.handover.thread 0) (record : t.record = s.record)
    (words : t.words = s.words) (icr : t.icrHigh = s.icrHigh)
    (fresh : ∀ c, s.boot c = .waiting → t.boot c = .waiting ∨ m = .waitSent c ∨ m = .waitFinished c)
    (finished : ∀ c, (s.boot c).finished = true → (t.boot c).finished = true)
    (busy : ∀ c, s.Busy c → t.Busy c) : t.MainFits P m := by
  have saved : ∀ i, s.Saved P i → t.Saved P i := fun i h => by
    unfold Saved
    rw [record]
    exact h
  have published : ∀ i, s.Published P i → t.Published P i := fun i h => by
    unfold Published
    rw [words]
    exact h
  have resetting : ∀ i, s.Resetting P i → t.Resetting P i := fun i h =>
    ⟨thread.trans h.1, saved i h.2⟩
  have stays : ∀ i, (∀ c, i ≤ c → m ≠ .waitSent c ∧ m ≠ .waitFinished c) → s.Fresh i →
      t.Fresh i := fun i other h c le => by
    obtain still | sent | sent := fresh c (h c le)
    · exact still
    · exact absurd sent (other c le).1
    · exact absurd sent (other c le).2
  have sent : ∀ i, (∀ c, i + 1 ≤ c → m ≠ .waitSent c ∧ m ≠ .waitFinished c) → s.Sent P i →
      t.Sent P i := fun i other h => {
    resetting := resetting i h.resetting
    fresh := stays _ other h.fresh
    published := published i h.published
    flag := fun set => finished i (h.flag (words ▸ set))
    alive := fun clear => busy i (h.alive (words ▸ clear)) }
  cases m with
  | outside =>
      have all : ∀ i, s.Fresh i → t.Fresh i := fun i => stays i fun _ _ => by simp
      simp only [MainFits, thread] at fits ⊢
      cases here : s.handover.thread 0 <;> simp only [here, OutsideFits] at fits ⊢
      case initLoop i => exact all i fits
      case initArg i | initCode i => exact ⟨all i fits.1, saved i fits.2⟩
  | waitSent i =>
      refine sent i (fun c le => ⟨fun same => ?_, by simp⟩) fits
      cases same
      omega
  | waitFinished i =>
      refine sent i (fun c le => ⟨by simp, fun same => ?_⟩) fits
      cases same
      omega
  | storeStack i => exact ⟨thread.trans fits.1, stays i (fun _ _ => by simp) fits.2⟩
  | storeTls i =>
      exact ⟨thread.trans fits.1, stays i (fun _ _ => by simp) fits.2.1, record ▸ fits.2.2⟩
  | storeCr0 i => exact ⟨resetting i fits.1, stays i (fun _ _ => by simp) fits.2⟩
  | storeCr3 i | storeCr4 i | storeGs i =>
      exact ⟨resetting i fits.1, stays i (fun _ _ => by simp) fits.2.1, words ▸ fits.2.2⟩
  | clearFinished i =>
      exact ⟨resetting i fits.1, stays i (fun _ _ => by simp) fits.2.1, published i fits.2.2⟩
  | selectTarget i =>
      exact ⟨resetting i fits.1, stays i (fun _ _ => by simp) fits.2.1, published i fits.2.2.1,
        words ▸ fits.2.2.2⟩
  | sendIpi i =>
      exact ⟨resetting i fits.1, stays i (fun _ _ => by simp) fits.2.1, published i fits.2.2.1,
        words ▸ fits.2.2.2.1, icr.trans fits.2.2.2.2⟩

/-- A core with an interrupt, or that loads, is the one that the main thread waits for. -/
theorem Inv.sent (h : Inv P s) (busy : s.Busy c) : s.Sent P c := by
  have main := h.main
  obtain here | here := h.target c busy <;> rw [here] at main <;> exact main

/-- No core has an interrupt or loads while the main thread is elsewhere. -/
theorem Inv.quiet (h : Inv P s) (other : ∀ c, s.main ≠ .waitSent c ∧ s.main ≠ .waitFinished c)
    (c : Nat) : s.pending c = false ∧ (s.boot c).loading = false := by
  have none : ¬ s.Busy c := fun busy => (h.target c busy).elim (other c).1 (other c).2
  simpa [Busy] using none

end State

/-! ### The steps of the main thread and of the cores -/

namespace State

variable {φ α : Type} {P : Platform φ α} {s t : State φ α} {c i : Nat}

/-- While no core has an interrupt or loads, the main thread may store to the words and records. -/
theorem Inv.advance (h : Inv P s) (other : ∀ c, s.main ≠ .waitSent c ∧ s.main ≠ .waitFinished c)
    (handover : t.handover = s.handover) (boot : t.boot = s.boot) (regs : t.regs = s.regs)
    (pending : t.pending = s.pending) (ids : ∀ i, (t.record (P.address i)).coreId = i)
    (main : t.MainFits P t.main) : Inv P t where
  placed := handover ▸ h.placed
  ids := ids
  main := main
  target c busy := by
    have quiet := h.quiet other c
    rw [Busy, pending, boot, quiet.1, quiet.2] at busy
    simp at busy
  pending := by
    rw [pending, boot]
    exact h.pending
  boot := by
    rw [boot, regs]
    exact h.boot
  core := by
    rw [boot, handover]
    exact h.core

theorem ids_setRecord (h : ∀ i, (s.record (P.address i)).coreId = i) (r : PerCore)
    (same : r.coreId = i) (j : Nat) :
    ((s.setRecord (P.address i) r).record (P.address j)).coreId = j := by
  by_cases eq : j = i
  · subst eq
    simp [same]
  · rw [setRecord_record, Function.update_of_ne fun address => eq (P.address_inj address)]
    exact h j

/-- The interrupt goes to the core it is meant for. -/
theorem Inv.sendIpi (h : Inv P s) (distinct : P.Distinct) (here : s.main = .sendIpi i)
    (run : s.stepMain P = some t) : Inv P t := by
  have fits := h.main
  have quiet := h.quiet (by simp [here])
  simp only [here, MainFits] at fits
  obtain ⟨resetting, fresh, published, cleared, icr⟩ := fits
  have placed := h.placed 0
  simp only [resetting.1, Handover.Thread.Placed, true_and] at placed
  have chosen : ∀ c,
      (s.pending c || decide (c < P.cores ∧ P.apicId c = s.icrHigh / 2 ^ 24)) = true → c = i := by
    intro c sent
    rw [(quiet c).1, icr, Nat.mul_div_cancel _ (by decide)] at sent
    obtain ⟨lt, same⟩ := of_decide_eq_true ((Bool.false_or _).symm.trans sent)
    exact distinct.inj c i lt placed.2 same
  simp only [stepMain, here] at run
  cases run
  exact {
    placed := h.placed
    ids := h.ids
    main := ⟨resetting, fun c le => fresh c (Nat.le_of_succ_le le), published,
      fun set => absurd cleared set, fun _ => .inl (by simp [icr, placed.2])⟩
    target := fun c busy => by
      obtain sent | loading := busy
      · exact .inl (congrArg Main.waitSent (chosen c sent).symm)
      · exact absurd loading (by simp [(quiet c).2])
    pending := fun c sent => fresh c (chosen c sent).ge
    boot := h.boot
    core := h.core }

/-- The main thread goes on when the core that it waits for has loaded everything. -/
theorem Inv.leave (h : Inv P s) (here : s.main = .waitFinished i) (set : s.words.finished ≠ 0) :
    Inv P { s with handover := s.handover.setThread 0 (.initLoop (i + 1)), main := .outside } := by
  have sent : s.Sent P i := by
    have main := h.main
    rwa [here] at main
  have loaded := sent.flag set
  have quiet : ∀ c, ¬ s.Busy c := by
    intro c busy
    obtain other | same := h.target c busy
    · simp [here] at other
    · obtain rfl : i = c := by simpa [here] using same
      obtain pending | loading := busy
      · simp [h.pending i pending, Boot.finished, Boot.leaving] at loaded
      · cases stage : s.boot i <;>
          simp_all [Boot.finished, Boot.leaving, Boot.loading]
  exact {
    placed := (Function.forall_update_iff s.handover.thread
      fun w p => p.Placed P.toPlatform w).mpr ⟨⟨rfl, Nat.succ_pos i⟩, fun w _ => h.placed w⟩
    ids := h.ids
    main := by
      simp only [MainFits, Handover.State.setThread_thread, Function.update_self]
      exact sent.fresh
    target := fun c busy => absurd busy (quiet c)
    pending := h.pending
    boot := h.boot
    core := h.core }

/-- Step lemma for the main thread outside of the hand-over. -/
theorem Inv.stepMain (h : Inv P s) (distinct : P.Distinct) (run : s.stepMain P = some t) :
    Inv P t := by
  have fits := h.main
  cases here : s.main with
  | sendIpi i => exact h.sendIpi distinct here run
  | outside => simp [State.stepMain, here] at run
  | waitSent i =>
      have sent : s.Sent P i := by rwa [here] at fits
      simp only [State.stepMain, here] at run
      cases run
      exact { h with
        main := ⟨sent.resetting, sent.fresh, sent.published, sent.flag, sent.alive⟩
        target := fun c busy => by
          obtain same | other := h.target c busy
          · rw [here] at same
            cases same
            exact .inr rfl
          · simp [here] at other }
  | waitFinished i =>
      simp only [State.stepMain, here] at run
      split at run
      · cases run
        exact h
      next set =>
        cases run
        exact h.leave here set
  | storeStack i =>
      simp only [here, MainFits] at fits
      simp only [State.stepMain, here] at run
      cases run
      refine h.advance (by simp [here]) rfl rfl rfl rfl (ids_setRecord h.ids _ (h.ids i)) ?_
      exact ⟨fits.1, fits.2, by simp⟩
  | storeTls i =>
      simp only [here, MainFits] at fits
      simp only [State.stepMain, here] at run
      cases run
      refine h.advance (by simp [here]) rfl rfl rfl rfl (ids_setRecord h.ids _ (h.ids i)) ?_
      simp only [MainFits, setMain_main, setMain_handover, setRecord_handover, fits.1, OutsideFits]
      refine ⟨fits.2.1, ?_⟩
      simp [Saved, fits.2.2]
  | storeCr0 i | storeCr3 i | storeCr4 i | storeGs i | clearFinished i | selectTarget i =>
      simp only [here, MainFits, Published] at fits
      simp only [State.stepMain, here] at run
      cases run
      refine h.advance (by simp [here]) rfl rfl rfl rfl h.ids ?_
      simp only [MainFits, Published]
      simp_all [Resetting, Saved, Fresh]

/-- The interrupt is only delivered to the core that the main thread waits for. -/
theorem Inv.deliver (h : Inv P s) (run : s.deliver c = some t) : Inv P t := by
  simp only [State.deliver] at run
  obtain ⟨⟨waiting, pending⟩, moved⟩ := Option.ite_none_right_eq_some.mp run
  cases moved
  have target := h.target c (.inl pending)
  exact {
    placed := h.placed
    ids := h.ids
    main := h.main.frame rfl rfl rfl rfl
      (fun d waits => by
        by_cases same : d = c
        · exact .inr (same ▸ target)
        · exact .inl (by simpa [Function.update_of_ne same] using waits))
      (fun d finished => by
        by_cases same : d = c
        · subst same
          simp [waiting, Boot.finished, Boot.leaving] at finished
        · simpa [Function.update_of_ne same] using finished)
      (fun d busy => by
        by_cases same : d = c
        · subst same
          exact .inr (by simp [Boot.loading])
        · simpa [Busy, Function.update_of_ne same] using busy)
    target := fun d busy => by
      by_cases same : d = c
      · exact same ▸ target
      · exact h.target d (by simpa [Busy, Function.update_of_ne same] using busy)
    pending := fun d waits => by
      by_cases same : d = c
      · simp [same] at waits
      · simpa [Function.update_of_ne same] using
          h.pending d (by simpa [Function.update_of_ne same] using waits)
    boot := (Function.forall_update_iff s.boot fun d b => BootFits P d (s.regs d) b).mpr
      ⟨trivial, fun d _ => h.boot d⟩
    core := fun d => by
      by_cases same : d = c
      · subst same
        exact .inr ((h.core d).resolve_left (by simp [waiting]))
      · simpa [Function.update_of_ne same] using h.core d }

end State

namespace State

variable {φ α : Type} {P : Platform φ α} {s t : State φ α} {c : Nat} {b : Boot} {r : Registers}

/-- A core that has had its interrupt moves on. -/
theorem Inv.moveBoot (h : Inv P s) (was : s.boot c ≠ .waiting)
    (boot : t.boot = Function.update s.boot c b) (regs : t.regs = Function.update s.regs c r)
    (record : t.record = s.record) (pending : t.pending = s.pending) (at_main : t.main = s.main)
    (thread : t.handover.thread = s.handover.thread)
    (elsewhere : ∀ d, d ≠ c → t.handover.core d = s.handover.core d)
    (loading : b.loading = true → (s.boot c).loading = true)
    (fits : BootFits P c r b) (off : b = .ready ∨ t.handover.core c = .off)
    (main : t.MainFits P t.main) : Inv P t where
  placed := thread ▸ h.placed
  ids := record ▸ h.ids
  main := main
  target d busy := by
    rw [at_main]
    by_cases same : d = c
    · subst same
      rw [Busy, pending, boot, Function.update_self] at busy
      exact h.target d (busy.imp_right loading)
    · rw [Busy, pending, boot, Function.update_of_ne same] at busy
      exact h.target d busy
  pending d waits := by
    have still := h.pending d (pending ▸ waits)
    have other : d ≠ c := fun same => was (same ▸ still)
    rw [boot, Function.update_of_ne other]
    exact still
  boot := by
    rw [boot, regs]
    intro d
    by_cases same : d = c
    · subst same
      simpa using fits
    · simpa [Function.update_of_ne same] using h.boot d
  core d := by
    by_cases same : d = c
    · subst same
      simpa [boot] using off
    · rw [boot, elsewhere d same, Function.update_of_ne same]
      exact h.core d

/-- What the main thread relies on stays when a core moves on. -/
theorem Inv.main_moveBoot (h : Inv P s) (was : s.boot c ≠ .waiting)
    (boot : t.boot = Function.update s.boot c b) (record : t.record = s.record)
    (words : t.words = s.words) (icr : t.icrHigh = s.icrHigh) (pending : t.pending = s.pending)
    (at_main : t.main = s.main) (thread : t.handover.thread = s.handover.thread)
    (finished : (s.boot c).finished = true → b.finished = true)
    (loading : (s.boot c).loading = true → b.loading = true) : t.MainFits P t.main := by
  rw [at_main]
  refine h.main.frame (congrFun thread 0) record words icr (fun d waits => .inl ?_)
    (fun d done => ?_) fun d busy => ?_
  · have other : d ≠ c := fun same => was (same ▸ waits)
    rwa [boot, Function.update_of_ne other]
  · by_cases same : d = c
    · subst same
      rw [boot, Function.update_self]
      exact finished done
    · rwa [boot, Function.update_of_ne same]
  · by_cases same : d = c
    · subst same
      rw [Busy, boot, Function.update_self]
      exact .inr (loading (busy.resolve_left fun waits => was (h.pending d waits)))
    · rwa [Busy, pending, boot, Function.update_of_ne same]

/-- A core loads the next register. -/
theorem Inv.load (h : Inv P s) (was : (s.boot c).loading = true) (loading : b.loading = true)
    (fits : BootFits P c r b) : Inv P ((s.setRegs c r).setBoot c b) := by
  have started : s.boot c ≠ .waiting := fun waits => by simp [waits, Boot.loading] at was
  have unfinished : (s.boot c).finished ≠ true := fun done => by
    cases stage : s.boot c <;> simp_all [Boot.finished, Boot.leaving, Boot.loading]
  have off := (h.core c).resolve_left fun done => by simp [done, Boot.loading] at was
  exact h.moveBoot started rfl rfl rfl rfl rfl rfl (fun _ _ => rfl) (fun _ => was) fits (.inr off)
    (h.main_moveBoot started rfl rfl rfl rfl rfl rfl rfl (fun done => absurd done unfinished)
      fun _ => loading)

/-- What a core finds through `gs` while the main thread waits for it. -/
theorem Inv.record_sent (h : Inv P s) (busy : (s.boot c).loading = true) :
    s.record (P.address c) = ⟨c, P.stackPtr c, P.tlsPtr c⟩ := by
  obtain ⟨stack, tls⟩ := (h.sent (.inr busy)).resetting.2
  have id := h.ids c
  cases data : s.record (P.address c)
  simp_all

/-- Only a core whose id is zero would go the way of the first core. -/
theorem Inv.entered (h : Inv P s) (distinct : P.Distinct) (here : s.boot c = .entered) :
    P.apicId c ≠ 0 := by
  have placed := h.placed 0
  have sent := h.sent (c := c) (.inr (by rw [here]; rfl))
  simp only [sent.resetting.1, Handover.Thread.Placed, true_and] at placed
  exact distinct.pos c placed.1 placed.2

/-- Step lemma for the way of a core to `ap_reset`. -/
theorem Inv.stepBoot (h : Inv P s) (distinct : P.Distinct) (run : s.stepBoot P c = some t) :
    Inv P t := by
  have fits := h.boot c
  have sent : (s.boot c).loading = true → s.Sent P c := fun busy => h.sent (.inr busy)
  have data := h.record_sent (c := c)
  simp only [State.stepBoot] at run
  cases here : s.boot c <;> rw [here] at fits sent data <;> simp only [here] at run
  case waiting | setFinished | ready | restarted => cases run
  case entered =>
    cases run
    rw [if_neg (h.entered distinct here)]
    have same : s.setRegs c (s.regs c) = s := by simp [setRegs]
    have loaded := h.load (r := s.regs c) (b := .loadCr0) (by rw [here]; rfl) rfl trivial
    rwa [same] at loaded
  case loadCr0 =>
    cases run
    obtain ⟨cr0, -, -, -⟩ := (sent rfl).published
    exact h.load (by rw [here]; rfl) rfl cr0
  case loadCr4 =>
    cases run
    obtain ⟨-, -, cr4, -⟩ := (sent rfl).published
    exact h.load (by rw [here]; rfl) rfl ⟨fits, cr4⟩
  case loadGs =>
    cases run
    obtain ⟨-, -, -, gs⟩ := (sent rfl).published
    exact h.load (by rw [here]; rfl) rfl ⟨fits.1, fits.2, gs⟩
  case loadTls =>
    cases run
    obtain ⟨cr0, cr4, gs⟩ := fits
    refine h.load (by rw [here]; rfl) rfl ⟨cr0, cr4, gs, ?_⟩
    rw [gs, data rfl]
  case loadStack =>
    cases run
    obtain ⟨cr0, cr4, gs, fs⟩ := fits
    refine h.load (by rw [here]; rfl) rfl ⟨cr0, cr4, gs, fs, ?_⟩
    rw [gs, data rfl]
  case installGdt =>
    cases run
    obtain ⟨cr0, cr4, gs, fs, rsp⟩ := fits
    refine h.load (by rw [here]; rfl) rfl ?_
    simp [BootFits, Platform.own, cr0, cr4, gs, fs, rsp, data rfl]
  case installIdt =>
    cases run
    exact h.load (by rw [here]; rfl) rfl fits
  case loadCr3 =>
    cases run
    obtain ⟨-, cr3, -, -⟩ := (sent rfl).published
    refine h.load (by rw [here]; rfl) rfl ?_
    rw [cr3]
    exact fits
  case acknowledge =>
    cases run
    have started : s.boot c ≠ .waiting := by simp [here]
    have off := (h.core c).resolve_left (by simp [here])
    exact h.moveBoot (r := s.regs c) started rfl (Function.update_eq_self c s.regs).symm rfl rfl rfl
      rfl (fun _ _ => rfl) (absurd · Bool.false_ne_true) fits (.inr off)
      (h.main_moveBoot started rfl rfl rfl rfl rfl rfl rfl (fun _ => rfl)
        (by simp [here, Boot.loading]))
  case enableInterrupts =>
    cases run
    have started : s.boot c ≠ .waiting := by simp [here]
    have own : (s.record (s.regs c).gs).coreId = c := by
      rw [show (s.regs c).gs = P.address c from congrArg Registers.gs fits]
      exact h.ids c
    rw [own]
    exact h.moveBoot (r := s.regs c) started rfl (Function.update_eq_self c s.regs).symm rfl rfl rfl
      rfl (fun d ne => Function.update_of_ne ne _ _) (absurd · Bool.false_ne_true) fits (.inl rfl)
      (h.main_moveBoot started rfl rfl rfl rfl rfl rfl rfl (fun _ => rfl)
        (by simp [here, Boot.loading]))

/-- The flag is set by the core that the main thread waits for. -/
theorem Inv.finish (h : Inv P s) (run : s.finish c = some t) : Inv P t := by
  simp only [State.finish] at run
  obtain ⟨here, moved⟩ := Option.ite_none_right_eq_some.mp run
  cases moved
  have busy : s.Busy c := .inr (by rw [here]; rfl)
  have sent := h.sent busy
  have started : s.boot c ≠ .waiting := by simp [here]
  have fits := h.boot c
  rw [here] at fits
  have after : ({ s.setBoot c .acknowledge with words.finished := 1 } : State φ α).Sent P c := {
    resetting := sent.resetting
    fresh := fun d le => by
      have other : d ≠ c := by omega
      simpa [Function.update_of_ne other] using sent.fresh d le
    published := sent.published
    flag := fun _ => by simp [Boot.finished, Boot.leaving]
    alive := by simp }
  refine h.moveBoot (r := s.regs c) started rfl (Function.update_eq_self c s.regs).symm rfl rfl rfl
    rfl (fun _ _ => rfl) (absurd · Bool.false_ne_true) fits
    (.inr ((h.core c).resolve_left (by simp [here]))) ?_
  obtain at_main | at_main := h.target c busy <;> simpa [at_main, MainFits] using after

end State

/-! ### The steps of the hand-over -/

section Steps

variable {φ α : Type} {P : Handover.Platform φ α} {h h' : Handover.State φ α}

/-- What the steps of the hand-over do that are not taken by the main thread on its way. -/
structure Elsewhere (P : Handover.Platform φ α) (h h' : Handover.State φ α) : Prop where
  placed : ∀ w, (h'.thread w).Placed P w
  thread : h'.thread 0 = h.thread 0 ∨ h.thread 0 = .idle ∧
    ((∃ f a, h'.thread 0 = .addLoop 1 f a) ∨ h'.thread 0 = .exitDecrement)
  core : ∀ c, h'.core c = .off ↔ h.core c = .off

theorem placed_update {w : Nat} {p : Handover.Thread φ α} (placed : ∀ w, (h.thread w).Placed P w)
    (mine : p.Placed P w) (u : Nat) : (Function.update h.thread w p u).Placed P u :=
  (Function.forall_update_iff h.thread fun u q => q.Placed P u).mpr ⟨mine, fun u _ => placed u⟩ u

theorem elsewhere_of_step {e : Handover.Event φ α} (placed : ∀ w, (h.thread w).Placed P w)
    (ne : ∀ w, e = .thread w → w ≠ 0) (run : h.step P e = some h') : Elsewhere P h h' := by
  cases e with
  | add w f a =>
      simp only [Handover.State.step] at run
      split at run
      next here =>
        obtain ⟨-, ⟨⟩⟩ := Option.ite_none_right_eq_some.mp run
        refine ⟨placed_update placed trivial, ?_, fun _ => Iff.rfl⟩
        by_cases main : w = 0
        · subst main
          exact .inr ⟨here, .inl ⟨f, a, by simp⟩⟩
        · exact .inl (Function.update_of_ne (Ne.symm main) _ _)
      next => cases run
  | exit =>
      simp only [Handover.State.step] at run
      split at run
      next here =>
        cases run
        exact ⟨placed_update placed rfl, .inr ⟨here, .inr (by simp)⟩, fun _ => Iff.rfl⟩
      next => cases run
  | thread w =>
      have other := ne w rfl
      obtain ⟨p, thread, mine⟩ := stepThread_thread run (placed w)
      -- Only the main thread starts cores.
      have core := stepThread_core run fun i here => by
        have mine := placed w
        rw [here] at mine
        exact other mine.1
      refine ⟨fun u => ?_, .inl ?_, fun c => by rw [core]⟩
      · rw [thread]
        exact placed_update placed mine u
      · rw [thread, Function.update_of_ne (Ne.symm other)]
  | core c =>
      have thread := stepCore_thread run
      exact ⟨thread ▸ placed, .inl (congrFun thread 0), stepCore_off run⟩

end Steps

namespace State

variable {φ α : Type} {P : Platform φ α} {s t : State φ α} {e : Handover.Event φ α}

/-- The two ways of a step of the hand-over. -/
theorem stepHandover_cases (run : s.stepHandover P e = some t) :
    (e = .thread 0 ∧ s.main = .outside ∧ ∃ h', s.handover.stepThread P.toPlatform 0 = some h' ∧
      t = { s with handover := h', main := phase (h'.thread 0) }) ∨
    ((∀ w, e = .thread w → w ≠ 0) ∧ ∃ h', s.handover.step P.toPlatform e = some h' ∧
      t = { s with handover := h' }) := by
  unfold stepHandover at run
  split at run
  · split at run
    next outside =>
      obtain ⟨h', step, rfl⟩ := Option.map_eq_some_iff.mp run
      exact .inl ⟨rfl, outside, h', step, rfl⟩
    next => cases run
  next other =>
    obtain ⟨h', step, rfl⟩ := Option.map_eq_some_iff.mp run
    refine .inr ⟨fun w same zero => ?_, h', step, rfl⟩
    subst zero
    exact other same

/-- The main thread outside of `initialize_threads` relies on nothing. -/
theorem Inv.outside_of_idle (h : Inv P s) (idle : s.handover.thread 0 = .idle) :
    s.main = .outside := by
  have fits := h.main
  cases here : s.main <;> simp only [here, MainFits] at fits
  case outside => rfl
  case storeStack | storeTls =>
    rw [idle] at fits
    cases fits.1
  case waitSent | waitFinished =>
    have at_reset := fits.resetting.1
    rw [idle] at at_reset
    cases at_reset
  all_goals
    have at_reset := fits.1.1
    rw [idle] at at_reset
    cases at_reset

theorem Inv.elsewhere (h : Inv P s) {h' : Handover.State φ α}
    (moved : Elsewhere P.toPlatform s.handover h') : Inv P { s with handover := h' } where
  placed := moved.placed
  ids := h.ids
  main := by
    obtain same | ⟨idle, away⟩ := moved.thread
    · exact h.main.frame same rfl rfl rfl (fun _ => .inl) (fun _ => id) fun _ => id
    · have outside := h.outside_of_idle idle
      simp only [MainFits, outside]
      obtain ⟨f, a, there⟩ | there := away <;> rw [there] <;> trivial
  target := h.target
  pending := h.pending
  boot := h.boot
  core c := (h.core c).imp_right (moved.core c).mpr

/-- The main thread moves on in the hand-over. -/
theorem Inv.mainThread (h : Inv P s) (outside : s.main = .outside) {h' : Handover.State φ α}
    (run : s.handover.stepThread P.toPlatform 0 = some h') :
    Inv P { s with handover := h', main := phase (h'.thread 0) } := by
  have fits := h.main
  simp only [outside, MainFits] at fits
  have core := stepThread_core run fun i here => by
    rw [here] at fits
    exact fits
  obtain ⟨p, thread, mine⟩ := stepThread_thread run (h.placed 0)
  have quiet := h.quiet (by simp [outside])
  refine {
    placed := fun w => by
      rw [thread]
      exact placed_update h.placed mine w
    ids := h.ids
    main := ?_
    target := fun c busy => by simp [Busy, (quiet c).1, (quiet c).2] at busy
    pending := h.pending
    boot := h.boot
    core := fun c => by
      rw [core]
      exact h.core c }
  simp only [Handover.State.stepThread] at run
  cases here : s.handover.thread 0 <;> rw [here] at fits <;> simp only [here] at run
  case idle | exited => cases run
  case initReset i => exact fits.elim
  case initLoop i =>
    cases run
    simp only [Handover.State.setThread_thread, Function.update_self]
    split
    · exact ⟨by simp, fits⟩
    · simp [phase, MainFits, OutsideFits]
  case initArg i =>
    cases run
    simp only [Handover.State.setThread_thread, Function.update_self, phase, MainFits, OutsideFits]
    exact fits
  case initCode i =>
    cases run
    simp only [Handover.State.setThread_thread, Function.update_self, phase]
    exact ⟨⟨by simp, fits.2⟩, fits.1⟩
  case addLoop | addWait =>
    split at run <;> cases run <;> simp [phase, MainFits, OutsideFits]
  case waitLoop | waitDone | addLoad | exitWait =>
    cases run
    simp only [Handover.State.setThread_thread, Function.update_self]
    split <;> simp [phase, MainFits, OutsideFits]
  all_goals
    cases run
    simp [phase, MainFits, OutsideFits]

theorem Inv.stepHandover (h : Inv P s) (run : s.stepHandover P e = some t) : Inv P t := by
  obtain ⟨-, outside, h', step, rfl⟩ | ⟨ne, h', step, rfl⟩ := stepHandover_cases run
  · exact h.mainThread outside step
  · exact h.elsewhere (elsewhere_of_step h.placed ne step)

/-- Step lemma. -/
theorem Inv.step {a : Event φ α} (h : Inv P s) (distinct : P.Distinct) (run : s.step P a = some t) :
    Inv P t := by
  cases a with
  | handover e => exact h.stepHandover run
  | main => exact h.stepMain distinct run
  | deliver c => exact h.deliver run
  | boot c => exact h.stepBoot distinct run
  | finish c => exact h.finish run

theorem inv_initial (regs : Nat → Registers) : Inv P (initial P regs) where
  placed w := by
    by_cases main : w = 0
    · simp [initial, Handover.State.initial, main, Handover.Thread.Placed]
    · simp [initial, Handover.State.initial, main, Handover.Thread.Placed]
  ids i := by
    simp only [initial, Platform.address]
    omega
  main := fun _ _ => rfl
  target _ busy := by simp [Busy, initial, Boot.loading] at busy
  pending _ _ := rfl
  boot _ := trivial
  core _ := .inr rfl

end State

end Monza.Bringup
