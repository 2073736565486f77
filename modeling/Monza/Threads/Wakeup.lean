import Monza.Threads.Semaphore

/-!
# No wakeup is lost

A core that has seen the value zero is on its way to halt, or halted. Its wait is covered as
long as the value stays zero. When a release makes it positive, that release is the one that
saw zero: it will find the waiter announced and send a notification. From then on the
notification is pending, or its handler runs and sends the core back to the check, unless the
core had halted and goes on to the check by itself.
-/

namespace Monza.Semaphore

open Transition

namespace Frame

/-- The core has seen the value zero and does not look again before an interrupt. -/
def Asleep (f : Frame) : Prop :=
  f.pc = .test ∧ f.rcx = 0 ∨ f.pc = .jnz ∧ f.zf = true ∨ f.pc = .hlt ∨ f.halted = true

/-- What is known of the registers at each instruction. -/
structure Good (f : Frame) : Prop where
  rcx_lt : f.rcx < 2 ^ 64
  jnz : f.pc = .jnz → f.zf = false → 0 < f.rcx
  endSuspend : f.pc = .endSuspend → 0 < f.rcx
  dec : f.pc = .dec → f.rax = f.rcx ∧ 0 < f.rcx
  cmpxchg : f.pc = .cmpxchg → f.rax = f.rcx + 1
  halted : f.halted = true → f.pc = .loopHlt

theorem good_entry : entry.Good where
  rcx_lt := by decide
  jnz := nofun
  endSuspend := nofun
  dec := nofun
  cmpxchg := nofun
  halted := nofun

theorem not_asleep_entry : ¬ entry.Asleep := by
  simp [Asleep, entry]

theorem resetSuspendCheck_good {f : Frame} (h : f.Good) (awake : f.halted = false) :
    f.resetSuspendCheck.Good ∧ ¬ f.resetSuspendCheck.Asleep ∧
      f.resetSuspendCheck.halted = false := by
  obtain ⟨pc, rcx, rax, zf, halted⟩ := f
  cases awake
  cases pc
  case loopSuspend | test | jnz | hlt =>
    exact ⟨⟨h.rcx_lt, nofun, nofun, nofun, nofun, nofun⟩,
      by simp [resetSuspendCheck, Asleep, Pc.position], rfl⟩
  all_goals exact ⟨h, by simp [resetSuspendCheck, Asleep, Pc.position], rfl⟩

end Frame

/-- A release that will notify the core, if the core is the announced waiter. -/
def Phase.Due {κ : Type} (t : κ) : Phase κ → Prop
  | loadWaiter last => last = 0
  | compare last current => last = 0 ∧ current = some t
  | loadGeneration c => c = t
  | triggerIpi c _ => c = t
  | _ => False

/-- Threads are announced within `acquire` only. -/
theorem Phase.isAnnounced_eq_false {κ : Type} {p : Phase κ} (outside : p.isAcquiring = false) :
    p.isAnnounced = false := by
  cases p <;> first | rfl | cases outside

section MapFrame

variable {κ : Type} (g : Frame → Frame) (p : Phase κ)

@[simp] theorem Phase.isAcquiring_mapFrame : (p.mapFrame g).isAcquiring = p.isAcquiring := by
  cases p <;> rfl

@[simp] theorem Phase.isAnnounced_mapFrame : (p.mapFrame g).isAnnounced = p.isAnnounced := by
  cases p <;> rfl

@[simp] theorem Phase.due_mapFrame (t : κ) : (p.mapFrame g).Due t ↔ p.Due t := by
  cases p <;> rfl

@[simp] theorem Phase.mapFrame_id : p.mapFrame id = p := by
  cases p <;> rfl

theorem Phase.mapFrame_eq_suspend {f : Frame} :
    p.mapFrame g = .suspend f ↔ ∃ f', p = .suspend f' ∧ g f' = f := by
  cases p <;> simp [mapFrame]

theorem Phase.mapFrame_eq_aborted : p.mapFrame g = .aborted ↔ p = .aborted := by
  cases p <;> simp [mapFrame]

end MapFrame

namespace State

variable {κ : Type}

/-- Something will make the core look at the value again. -/
def Covered (s : State κ) (c : κ) : Prop :=
  s.pending c = true ∨ (s.handler c = some .notify ∨ s.handler c = some .resetCheck) ∨
    ∃ r, (s.phase r).Due c

/-- What holds in every state. -/
structure Inv (s : State κ) : Prop where
  acquires_le : s.acquires ≤ s.adds
  value_eq : s.value = u64 (s.adds - s.acquires)
  exclusive : Exclusive (fun p => p.isAcquiring = true) s.phase
  waiter : ∀ c, s.waiter = some c ↔ (s.phase c).isAnnounced = true
  good : ∀ c f, s.phase c = .suspend f → f.Good ∧ (s.handler c ≠ none → f.halted = false)
  covered : ∀ c f, s.phase c = .suspend f → f.Asleep → 0 < s.value → s.Covered c
  aborted : ∀ c, s.phase c ≠ .aborted

namespace Inv

variable {s : State κ} {c : κ} {f : Frame}

theorem value_lt (h : s.Inv) : s.value < 2 ^ 64 := h.value_eq ▸ u64_lt _

/-- While a core acquires, no other core is suspended. -/
theorem alone (h : s.Inv) (acquiring : (s.phase c).isAcquiring = true) {d : κ} (ne : d ≠ c) :
    (s.phase d).isAcquiring = false :=
  Bool.eq_false_iff.mpr (h.exclusive.not_of_ne acquiring ne)

theorem not_suspend (h : s.Inv) (acquiring : (s.phase c).isAcquiring = true) {d : κ}
    (ne : d ≠ c) : s.phase d ≠ .suspend f := by
  intro suspended
  have none := h.alone acquiring ne
  rw [suspended] at none
  cases none

theorem waiter_of_suspend (h : s.Inv) (suspended : s.phase c = .suspend f) :
    s.waiter = some c := by
  rw [h.waiter, suspended]
  rfl

theorem initial : (State.initial : State κ).Inv where
  acquires_le := Nat.le_refl 0
  value_eq := rfl
  exclusive := fun _ _ no => by cases no
  waiter := by simp [State.initial, Phase.isAnnounced]
  good := nofun
  covered := nofun
  aborted := nofun

/-- A halted core with a positive value has a notification pending or coming. -/
theorem halted (h : s.Inv) (here : s.phase c = .suspend f) (halted : f.halted = true)
    (positive : 0 < s.value) : s.pending c = true ∨ ∃ r, (s.phase r).Due c := by
  have running : s.handler c = none := by
    by_contra active
    have awake := (h.good c f here).2 active
    rw [halted] at awake
    cases awake
  obtain pending | handler | due := h.covered c f here (.inr (.inr (.inr halted))) positive
  · exact .inl pending
  · rw [running] at handler
    simp at handler
  · exact .inr due

variable [DecidableEq κ]

theorem aborted_update (h : s.Inv) {p : Phase κ} (aborted : p ≠ .aborted) :
    ∀ d, Function.update s.phase c p d ≠ .aborted := by
  rw [Function.forall_update_iff s.phase fun _ q => q ≠ .aborted]
  exact ⟨aborted, fun d _ => h.aborted d⟩

/-- A step that only moves a core on. -/
theorem moveTo (h : s.Inv) {p : Phase κ}
    (acquiring : p.isAcquiring = true →
      (s.phase c).isAcquiring = true ∨ ∀ d, d ≠ c → ¬ (s.phase d).isAcquiring = true)
    (announced : p.isAnnounced = (s.phase c).isAnnounced)
    (good : ∀ f, p = .suspend f → f.Good ∧ (s.handler c ≠ none → f.halted = false))
    (asleep : ∀ f, p = .suspend f → f.Asleep → 0 < s.value →
      ∃ f', s.phase c = .suspend f' ∧ f'.Asleep)
    (due : ∀ t, s.waiter = some t → (s.phase c).Due t → p.Due t ∨ s.pending t = true)
    (aborted : p ≠ .aborted) : (s.moveTo c p).Inv where
  acquires_le := h.acquires_le
  value_eq := h.value_eq
  exclusive := h.exclusive.update acquiring
  waiter := by
    intro d
    by_cases here : d = c
    · subst here
      simp [announced, h.waiter]
    · simp [here, h.waiter]
  good := by
    refine (Function.forall_update_iff s.phase fun d q => ∀ f, q = .suspend f →
      f.Good ∧ (s.handler d ≠ none → f.halted = false)).mpr ?_
    exact ⟨good, fun d _ => h.good d⟩
  covered := by
    intro d f suspended asleep' positive
    -- who had to notify the core still has to, or has done so
    have keep : s.Covered d → s.waiter = some d → (s.moveTo c p).Covered d := by
      rintro (pending | handler | ⟨r, hr⟩) waiter
      · exact .inl pending
      · exact .inr (.inl handler)
      · by_cases same : r = c
        · subst same
          obtain after | pending := due d waiter hr
          · exact .inr (.inr ⟨r, by simpa using after⟩)
          · exact .inl pending
        · exact .inr (.inr ⟨r, by simpa [same] using hr⟩)
    by_cases here : d = c
    · subst here
      obtain ⟨f', before, asleep'⟩ := asleep f (by simpa using suspended) asleep' positive
      exact keep (h.covered d f' before asleep' positive) (h.waiter_of_suspend before)
    · have before : s.phase d = .suspend f := by simpa [here] using suspended
      exact keep (h.covered d f before asleep' positive) (h.waiter_of_suspend before)
  aborted := h.aborted_update aborted

/-- A step that moves a core on outside of `acquire`. -/
theorem moveTo_outside (h : s.Inv) {p : Phase κ} (before : (s.phase c).isAcquiring = false)
    (after : p.isAcquiring = false)
    (due : ∀ t, s.waiter = some t → (s.phase c).Due t → p.Due t ∨ s.pending t = true)
    (aborted : p ≠ .aborted) : (s.moveTo c p).Inv := by
  refine h.moveTo ?_ ?_ ?_ ?_ due aborted
  · intro acquiring
    rw [after] at acquiring
    cases acquiring
  · rw [Phase.isAnnounced_eq_false before, Phase.isAnnounced_eq_false after]
  · rintro f rfl
    cases after
  · rintro f rfl
    cases after

/-- A step within `acquire_semaphore`. -/
theorem moveTo_suspend (h : s.Inv) {f f' : Frame} (suspended : s.phase c = .suspend f)
    (good : f'.Good) (halted : s.handler c ≠ none → f'.halted = false)
    (asleep : f'.Asleep → 0 < s.value → f.Asleep) : (s.moveTo c (.suspend f')).Inv := by
  refine h.moveTo ?_ ?_ ?_ ?_ ?_ nofun
  · intro _
    rw [suspended]
    exact .inl rfl
  · rw [suspended]
    rfl
  · rintro _ ⟨⟩
    exact ⟨good, halted⟩
  · rintro _ ⟨⟩ now positive
    exact ⟨f, suspended, asleep now positive⟩
  · intro t _ due
    rw [suspended] at due
    exact due.elim

theorem notify (h : s.Inv) (c : κ) : (s.notify c).Inv where
  acquires_le := h.acquires_le
  value_eq := h.value_eq
  exclusive := h.exclusive
  waiter := h.waiter
  good := h.good
  aborted := h.aborted
  covered := by
    intro d f suspended asleep positive
    by_cases here : d = c
    · subst here
      exact .inl (by simp)
    · obtain pending | rest := h.covered d f suspended asleep positive
      · exact .inl (by simpa [here] using pending)
      · exact .inr rest

/-- Steps of a core within `acquire` that other cores can see: no other core is there, and this one
does not sleep. -/
theorem solo (h : s.Inv) (acquiring : (s.phase c).isAcquiring = true) {t : State κ} {p : Phase κ}
    (phase : t.phase = Function.update s.phase c p)
    (acquires_le : t.acquires ≤ t.adds) (value_eq : t.value = u64 (t.adds - t.acquires))
    (waiter : t.waiter = if p.isAnnounced then some c else none)
    (good : ∀ f, p = .suspend f → f.Good ∧ f.halted = false ∧ ¬ f.Asleep)
    (aborted : p ≠ .aborted) : t.Inv := by
  have others : ∀ d, d ≠ c → (s.phase d).isAnnounced = false :=
    fun d ne => Phase.isAnnounced_eq_false (h.alone acquiring ne)
  have suspended : ∀ d f, t.phase d = .suspend f → d = c ∧ p = .suspend f := by
    intro d f at'
    rw [phase] at at'
    by_cases same : d = c
    · subst same
      exact ⟨rfl, by simpa using at'⟩
    · rw [Function.update_of_ne same] at at'
      exact absurd at' (h.not_suspend acquiring same)
  refine ⟨acquires_le, value_eq, ?_, ?_, ?_, ?_, ?_⟩
  · rw [phase]
    exact h.exclusive.update fun _ => .inl acquiring
  · intro d
    rw [phase, waiter]
    by_cases same : d = c
    · subst same
      simp
    · simp [same, others d same, Ne.symm same]
  · intro d f at'
    obtain ⟨rfl, here⟩ := suspended d f at'
    exact ⟨(good f here).1, fun _ => (good f here).2.1⟩
  · intro d f at' asleep
    obtain ⟨rfl, here⟩ := suspended d f at'
    exact absurd asleep (good f here).2.2
  · rw [phase]
    exact h.aborted_update aborted

theorem announce (h : s.Inv) (here : s.phase c = .announce) :
    ({ s with waiter := some c }.moveTo c (.suspend .entry)).Inv := by
  refine h.solo (by rw [here]; rfl) rfl h.acquires_le h.value_eq rfl ?_ nofun
  rintro _ ⟨⟩
  exact ⟨Frame.good_entry, rfl, Frame.not_asleep_entry⟩

theorem withdraw (h : s.Inv) (here : s.phase c = .withdraw) :
    ({ s with waiter := none }.moveTo c .idle).Inv :=
  h.solo (by rw [here]; rfl) rfl h.acquires_le h.value_eq rfl nofun nofun

theorem cmpxchg (h : s.Inv) (here : s.phase c = .suspend f) (pc : f.pc = .cmpxchg) :
    (s.cmpxchg c f).Inv := by
  have acquiring : (s.phase c).isAcquiring = true := by
    rw [here]
    rfl
  have good := (h.good c f here).1
  have awake : f.halted = false := by
    cases halted : f.halted with
    | false => rfl
    | true =>
        have other := good.halted halted
        rw [pc] at other
        cases other
  have waiter := h.waiter_of_suspend here
  rw [State.cmpxchg]
  by_cases same : s.value = f.rax
  · rw [if_pos same]
    -- the value that is replaced was positive
    have before : f.rcx + 1 = u64 (s.adds - s.acquires) := by
      rw [← h.value_eq, same, good.cmpxchg pc]
    simp only [u64] at before
    refine h.solo acquiring rfl ?_ ?_ waiter ?_ nofun
    · show s.acquires + 1 ≤ s.adds
      omega
    · show f.rcx = u64 (s.adds - (s.acquires + 1))
      simp only [u64]
      omega
    · rintro _ ⟨⟩
      exact ⟨⟨good.rcx_lt, nofun, nofun, nofun, nofun, by simp [awake]⟩, awake,
        by simp [Frame.Asleep, awake]⟩
  · rw [if_neg same]
    refine h.solo acquiring rfl h.acquires_le h.value_eq waiter ?_ nofun
    rintro _ ⟨⟩
    exact ⟨⟨good.rcx_lt, nofun, nofun, nofun, nofun, by simp [awake]⟩, awake,
      by simp [Frame.Asleep, awake]⟩

/-- A `fetch_add`: if the value was zero, this release is the one to notify a waiter. -/
theorem fetchAdd (h : s.Inv) (here : s.phase c = .fetchAdd) :
    ({ s with value := u64 (s.value + 1), adds := s.adds + 1 }.moveTo c
      (.loadWaiter s.value)).Inv := by
  have idle : ∀ d f, (Function.update s.phase c (.loadWaiter s.value)) d = .suspend f →
      s.phase d = .suspend f := by
    intro d f at'
    by_cases same : d = c
    · subst same
      simp at at'
    · simpa [same] using at'
  refine ⟨Nat.le_succ_of_le h.acquires_le, ?_, h.exclusive.update nofun, ?_, ?_, ?_, ?_⟩
  · have before := h.value_eq
    have le := h.acquires_le
    show u64 (s.value + 1) = u64 (s.adds + 1 - s.acquires)
    simp only [u64] at before ⊢
    omega
  · intro d
    by_cases same : d = c
    · subst same
      simp [h.waiter, here, Phase.isAnnounced]
    · simp [same, h.waiter]
  · intro d f at'
    exact h.good d f (idle d f at')
  · intro d f at' asleep _
    have before := idle d f at'
    obtain zero | positive := Nat.eq_zero_or_pos s.value
    · exact .inr (.inr ⟨c, by simpa [Phase.Due] using zero⟩)
    · obtain pending | handler | ⟨r, due⟩ := h.covered d f before asleep positive
      · exact .inl pending
      · exact .inr (.inl handler)
      · have other : r ≠ c := by
          rintro rfl
          rw [here] at due
          exact due
        exact .inr (.inr ⟨r, by simpa [other] using due⟩)
  · exact h.aborted_update (by simp)

/-- One instruction of `acquire_semaphore`. -/
theorem execute {t : State κ} (h : s.Inv) (here : s.phase c = .suspend f)
    (running : s.handler c = none) (run : s.execute c f = some t) : t.Inv := by
  obtain ⟨good, -⟩ := h.good c f here
  have stay : ∀ f' : Frame, f'.Good → (f'.Asleep → 0 < s.value → f.Asleep) →
      (s.moveTo c (.suspend f')).Inv := fun f' good' asleep =>
    h.moveTo_suspend here good' (fun active => absurd running active) asleep
  have halted : f.pc ≠ .loopHlt → f.halted = false := fun other =>
    Bool.eq_false_iff.mpr fun halted => other (good.halted halted)
  obtain ⟨pc, rcx, rax, zf, sleeping⟩ := f
  cases pc with
  | loopSuspend =>
      cases run
      cases halted nofun
      refine stay _ ⟨h.value_lt, nofun, nofun, nofun, nofun, nofun⟩ ?_
      -- a value that has been seen as zero is not positive
      rintro (⟨-, zero⟩ | ⟨no, -⟩ | no | no) positive
      · exact absurd zero (Nat.pos_iff_ne_zero.mp positive)
      all_goals cases no
  | test =>
      cases run
      cases halted nofun
      refine stay _ ⟨good.rcx_lt, ?_, nofun, nofun, nofun, nofun⟩ ?_
      · simp [Nat.pos_iff_ne_zero]
      · simp +contextual [Frame.Asleep]
  | jnz =>
      cases run
      cases halted nofun
      have positive := good.jnz rfl
      cases zf with
      | true =>
          exact stay _ ⟨good.rcx_lt, nofun, nofun, nofun, nofun, nofun⟩ (by simp [Frame.Asleep])
      | false =>
          exact stay _ ⟨good.rcx_lt, nofun, fun _ => positive rfl, nofun, nofun, nofun⟩
            (by simp [Frame.Asleep])
  | hlt =>
      cases run
      exact stay _ ⟨good.rcx_lt, nofun, nofun, nofun, nofun, fun _ => rfl⟩ (by simp [Frame.Asleep])
  | loopHlt =>
      cases sleeping with
      | true => cases run
      | false =>
          cases run
          exact stay _ ⟨good.rcx_lt, nofun, nofun, nofun, nofun, nofun⟩ (by simp [Frame.Asleep])
  | endSuspend =>
      cases run
      cases halted nofun
      exact stay _ ⟨good.rcx_lt, nofun, nofun, fun _ => ⟨rfl, good.endSuspend rfl⟩, nofun, nofun⟩
        (by simp [Frame.Asleep])
  | dec =>
      cases run
      cases halted nofun
      obtain ⟨same, positive⟩ := good.dec rfl
      have bound := good.rcx_lt
      have less : sub64 rcx 1 = rcx - 1 := sub64_of_le bound positive
      simp only at same positive bound
      refine stay _ ⟨?_, nofun, nofun, nofun, fun _ => ?_, nofun⟩ (by simp [Frame.Asleep])
      · show sub64 rcx 1 < 2 ^ 64
        omega
      · show rax = sub64 rcx 1 + 1
        omega
  | cmpxchg =>
      cases run
      exact h.cmpxchg here rfl
  | retry =>
      cases run
      cases halted nofun
      cases zf with
      | true =>
          exact stay _ ⟨good.rcx_lt, nofun, nofun, nofun, nofun, nofun⟩ (by simp [Frame.Asleep])
      | false =>
          exact stay _ ⟨good.rcx_lt, nofun, nofun, nofun, nofun, nofun⟩ (by simp [Frame.Asleep])
  | ret =>
      cases run
      refine h.moveTo ?_ ?_ nofun nofun ?_ nofun
      · intro _
        rw [here]
        exact .inl rfl
      · rw [here]
        rfl
      · intro t _ due
        rw [here] at due
        exact due.elim

omit [DecidableEq κ] in
/-- The announced thread is not one that has not announced itself. -/
theorem waiter_ne {d : κ} (h : s.Inv) (waiter : s.waiter = some d)
    (silent : (s.phase c).isAnnounced = false) : d ≠ c := by
  rintro rfl
  have announced := (h.waiter d).mp waiter
  rw [silent] at announced
  cases announced

omit [DecidableEq κ] in
/-- Nobody is announced when a thread announces itself. -/
theorem waiter_eq_none (h : s.Inv) (here : s.phase c = .announce) : s.waiter = none := by
  cases waiter : s.waiter with
  | none => rfl
  | some d =>
      have other := h.waiter_ne (c := c) waiter (by rw [here]; rfl)
      have silent := Phase.isAnnounced_eq_false (h.alone (c := c) (by rw [here]; rfl) other)
      rw [(h.waiter d).mp waiter] at silent
      cases silent

/-- The next step of a thread. -/
theorem advance {t : State κ} {debug : Bool} (h : s.Inv) (running : s.handler c = none)
    (run : s.advance debug c = some t) : t.Inv := by
  simp only [State.advance] at run
  cases here : s.phase c with
  | idle =>
      rw [here] at run
      cases run
  | announce =>
      rw [here] at run
      simp only [h.waiter_eq_none here, ne_eq, not_true_eq_false, and_false, if_false] at run
      cases run
      exact h.announce here
  | suspend f =>
      rw [here] at run
      exact h.execute here running run
  | withdraw =>
      rw [here] at run
      cases run
      exact h.withdraw here
  | fetchAdd =>
      rw [here] at run
      cases run
      exact h.fetchAdd here
  | loadWaiter last =>
      rw [here] at run
      cases run
      refine h.moveTo_outside (by rw [here]; rfl) rfl ?_ nofun
      intro t waiter due
      rw [here] at due
      exact .inl ⟨due, waiter⟩
  | compare last current =>
      rw [here] at run
      cases run
      refine h.moveTo_outside (by rw [here]; rfl) ?_ ?_ ?_
      · cases current with
        | none => rfl
        | some t =>
            simp only
            split <;> rfl
      · intro t waiter due
        rw [here] at due
        obtain ⟨zero, rfl⟩ := due
        have other := h.waiter_ne waiter (by rw [here]; rfl)
        exact .inl (by simp [zero, other, Phase.Due])
      · cases current with
        | none => nofun
        | some t =>
            simp only
            split <;> nofun
  | loadGeneration t =>
      rw [here] at run
      cases run
      refine h.moveTo_outside (by rw [here]; rfl) rfl ?_ nofun
      intro u _ due
      rw [here] at due
      exact .inl due
  | triggerIpi t g =>
      rw [here] at run
      cases run
      refine (h.notify t).moveTo_outside (by simp [here, Phase.isAcquiring]) rfl ?_ nofun
      intro u _ due
      simp only [State.notify_phase, here] at due
      cases due
      exact .inr (by simp)
  | checkGeneration t g =>
      rw [here] at run
      cases run
      refine h.moveTo_outside (by rw [here]; rfl) ?_ ?_ ?_
      · split <;> rfl
      · intro u _ due
        rw [here] at due
        exact due.elim
      · split <;> nofun
  | aborted => exact absurd here (h.aborted c)

/-- A step of the notification handler of a core: it may change the interrupted context. -/
theorem rewind (h : s.Inv) (g : Frame → Frame) {t : State κ}
    (phase : t.phase = Function.update s.phase c ((s.phase c).mapFrame g))
    (value : t.value = s.value ∧ t.waiter = s.waiter ∧ t.adds = s.adds ∧ t.acquires = s.acquires)
    (others : ∀ d, d ≠ c → t.handler d = s.handler d ∧ t.pending d = s.pending d)
    (good : ∀ f, s.phase c = .suspend f → (g f).Good ∧ (t.handler c ≠ none → (g f).halted = false))
    (covered : ∀ f, s.phase c = .suspend f → (g f).Asleep → 0 < s.value →
      t.pending c = true ∨ (t.handler c = some .notify ∨ t.handler c = some .resetCheck) ∨
        ∃ r, (s.phase r).Due c) : t.Inv := by
  obtain ⟨value, waiter, adds, acquires⟩ := value
  have due : ∀ u r, (s.phase r).Due u → (t.phase r).Due u := by
    intro u r due
    rw [phase]
    by_cases same : r = c
    · subst same
      simpa using due
    · simpa [same] using due
  refine ⟨?_, ?_, ?_, ?_, ?_, ?_, ?_⟩
  · rw [acquires, adds]
    exact h.acquires_le
  · rw [value, acquires, adds]
    exact h.value_eq
  · rw [phase]
    exact h.exclusive.update fun acquiring => .inl (by simpa using acquiring)
  · intro d
    rw [phase, waiter, h.waiter]
    by_cases same : d = c
    · subst same
      simp
    · simp [same]
  · intro d f at'
    rw [phase] at at'
    by_cases same : d = c
    · subst same
      obtain ⟨f', before, rfl⟩ := (Phase.mapFrame_eq_suspend ..).mp (by simpa using at')
      exact good f' before
    · rw [(others d same).1]
      exact h.good d f (by simpa [same] using at')
  · intro d f at' asleep positive
    rw [phase] at at'
    rw [value] at positive
    by_cases same : d = c
    · subst same
      obtain ⟨f', before, rfl⟩ := (Phase.mapFrame_eq_suspend ..).mp (by simpa using at')
      obtain pending | handler | ⟨r, hr⟩ := covered f' before asleep positive
      · exact .inl pending
      · exact .inr (.inl handler)
      · exact .inr (.inr ⟨r, due d r hr⟩)
    · rw [State.Covered, (others d same).1, (others d same).2]
      obtain pending | handler | ⟨r, hr⟩ :=
        h.covered d f (by simpa [same] using at') asleep positive
      · exact .inl pending
      · exact .inr (.inl handler)
      · exact .inr (.inr ⟨r, due d r hr⟩)
  · rw [phase]
    refine h.aborted_update ?_
    rw [Ne, Phase.mapFrame_eq_aborted]
    exact h.aborted c

theorem interrupt (h : s.Inv) : (s.interrupt c).Inv := by
  refine h.rewind _ rfl ⟨rfl, rfl, rfl, rfl⟩ ?_ ?_ ?_
  · intro d ne
    simp [State.interrupt, ne]
  · intro f at'
    have good := (h.good c f at').1
    exact ⟨⟨good.rcx_lt, good.jnz, good.endSuspend, good.dec, good.cmpxchg, nofun⟩, fun _ => rfl⟩
  · intro f _ _ _
    exact .inr (.inl (.inl (by simp [State.interrupt])))

theorem handle (h : s.Inv) {a : Handler} (active : s.handler c = some a) :
    (s.handle c a).Inv := by
  have awake : ∀ f, s.phase c = .suspend f → f.Good ∧ f.halted = false := fun f at' =>
    ⟨(h.good c f at').1, (h.good c f at').2 (by rw [active]; nofun)⟩
  have same : s.phase = Function.update s.phase c ((s.phase c).mapFrame id) := by
    rw [Phase.mapFrame_id, Function.update_eq_self]
  -- the last two steps leave the interrupted context and who has to notify as they are
  have leave : ∀ a', a = .acknowledge ∨ a = .iret → (s.enter c a').Inv := by
    intro a' late
    refine h.rewind id same ⟨rfl, rfl, rfl, rfl⟩ ?_ ?_ ?_
    · intro d ne
      simp [ne]
    · intro f at'
      exact ⟨(awake f at').1, fun _ => (awake f at').2⟩
    · intro f at' asleep positive
      obtain pending | handler | due := h.covered c f at' asleep positive
      · exact .inl pending
      · rw [active] at handler
        obtain rfl | rfl := late <;> simp at handler
      · exact .inr (.inr due)
  cases a with
  | notify =>
      refine h.rewind id same ⟨rfl, rfl, rfl, rfl⟩ ?_ ?_ ?_
      · intro d ne
        simp [State.handle, ne]
      · intro f at'
        exact ⟨(awake f at').1, fun _ => (awake f at').2⟩
      · intro f _ _ _
        exact .inr (.inl (.inr (by simp [State.handle])))
  | resetCheck =>
      refine h.rewind _ rfl ⟨rfl, rfl, rfl, rfl⟩ ?_ ?_ ?_
      · intro d ne
        simp [State.handle, ne]
      · intro f at'
        obtain ⟨good, -, halted⟩ := Frame.resetSuspendCheck_good (awake f at').1 (awake f at').2
        exact ⟨good, fun _ => halted⟩
      · intro f at' asleep
        exact absurd asleep (Frame.resetSuspendCheck_good (awake f at').1 (awake f at').2).2.1
  | acknowledge => exact leave _ (.inl rfl)
  | iret => exact leave _ (.inr rfl)

/-- Step lemma. -/
theorem step {t : State κ} {debug : Bool} {e : Event κ} (h : s.Inv) (single : s.SingleWaiter e)
    (run : s.step debug e = some t) : t.Inv := by
  cases e with
  | acquire c =>
      obtain ⟨⟨-, idle⟩, ⟨⟩⟩ := Option.ite_none_right_eq_some.mp run
      refine h.moveTo ?_ ?_ nofun nofun ?_ nofun
      · intro _
        exact .inr fun d _ => Bool.eq_false_iff.mp (single d)
      · rw [idle]
        rfl
      · intro t _ due
        rw [idle] at due
        exact due.elim
  | release c =>
      obtain ⟨⟨-, idle⟩, ⟨⟩⟩ := Option.ite_none_right_eq_some.mp run
      refine h.moveTo_outside (by rw [idle]; rfl) rfl ?_ nofun
      intro t _ due
      rw [idle] at due
      exact due.elim
  | advance c =>
      obtain ⟨running, run⟩ := Option.ite_none_right_eq_some.mp run
      exact h.advance running run
  | notification c =>
      cases run
      exact h.notify c
  | interrupt c =>
      obtain ⟨-, ⟨⟩⟩ := Option.ite_none_right_eq_some.mp run
      exact h.interrupt
  | handle c =>
      obtain ⟨a, active, rfl⟩ := Option.map_eq_some_iff.mp run
      exact h.handle active

/-- Run lemma. -/
theorem run {t : State κ} {debug : Bool} {events : List (Event κ)}
    (run : Run (Within State.SingleWaiter (State.step debug)) s events t) (start : s.Inv) : t.Inv :=
  run.invariant State.Inv (fun _ _ _ h step => h.step step.1 step.2) start

end Inv

end State

theorem Phase.Due.isReleasing {κ : Type} {t : κ} {p : Phase κ} (due : p.Due t) :
    p.isReleasing = true := by
  cases p <;> first | rfl | exact due.elim

/-- For every interleaving with one waiter at a time, on any number of cores: the value is the
number of additions less the number of acquisitions, as a word, and there are no more acquisitions
than additions. A core that is halted while the value is positive has a notification pending, or
some core is between its addition and the end of its ping. -/
theorem semaphore_loses_no_wakeup {κ : Type} [DecidableEq κ] (debug : Bool)
    (events : List (Event κ)) (s : State κ)
    (run : Run (Within State.SingleWaiter (State.step debug)) State.initial events s) :
    s.value = (s.adds - s.acquires) % 2 ^ 64 ∧ s.acquires ≤ s.adds ∧
      ∀ c f, s.phase c = .suspend f → f.halted = true → 0 < s.value →
        s.pending c = true ∨ ∃ r, (s.phase r).isReleasing = true := by
  have h := State.Inv.run run State.Inv.initial
  refine ⟨h.value_eq, h.acquires_le, ?_⟩
  intro c f here halted positive
  obtain pending | ⟨r, due⟩ := h.halted here halted positive
  · exact .inl pending
  · exact .inr ⟨r, due.isReleasing⟩

/-- One core halts, the other adds and has not looked at the waiter yet. -/
def sampleEvents : List (Event Bool) :=
  [.acquire true] ++ List.replicate 5 (.advance true) ++ [.release false, .advance false]

theorem semaphore_loses_no_wakeup_sample : ∃ s : State Bool,
    Run (Within State.SingleWaiter (State.step true)) State.initial sampleEvents s ∧
      s.phase true = .suspend ⟨.loopHlt, 0, 0, true, true⟩ ∧ s.value = 1 ∧
        (s.pending true = true ∨ ∃ r, (s.phase r).isReleasing = true) := by
  have done : (simulate State.SingleWaiter (State.step true) sampleEvents State.initial).map
      (fun s => (s.phase true, s.value)) =
      some (.suspend ⟨.loopHlt, 0, 0, true, true⟩, 1) := by decide +kernel
  obtain ⟨s, hs, seen⟩ := Option.map_eq_some_iff.mp done
  obtain ⟨halted, value⟩ := Prod.mk.inj seen
  have run := simulate_run hs
  refine ⟨s, run, halted, value, ?_⟩
  exact (semaphore_loses_no_wakeup true sampleEvents s run).2.2 true _ halted rfl (by omega)

end Monza.Semaphore
