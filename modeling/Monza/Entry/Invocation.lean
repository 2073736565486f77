import Monza.Entry.Nesting

/-!
# Invocations of compartments

`Compartment::invoke` refuses a compartment that is not valid, and otherwise enters it.
`compartment_forward_exit` makes it invalid, for good. Validity is looked at only when an
invocation starts: if a callback invokes its own compartment again and that inner invocation is
given up, the outer one goes on running, and may return as if nothing had happened.

Recorded are the outcome of every invocation, with what `check_valid` says at that point, and every
time that code of a compartment runs, with the validity of that compartment.
-/

namespace Monza.Invocation

open Transition
open Nesting (Activation exits)

structure Outcome where
  compartment : Nat
  success : Bool
  valid : Bool
  deriving DecidableEq, Repr

/-- Code of a compartment has been entered or resumed. -/
structure Entered where
  compartment : Nat
  valid : Bool
  deriving DecidableEq, Repr

structure State where
  core : Nesting.State
  valid : Nat → Bool
  outcomes : List Outcome
  entered : List Entered

/-- Kernel code calls `invoke`, or the core does anything else than entering a compartment. -/
inductive Event where
  | invoke (self ret : Nat)
  | other (e : Nesting.Event)

namespace State

def initial (kernel : Nesting.Kernel) : State := ⟨.initial kernel, fun _ => true, [], []⟩

variable (K : KernelCore) (s : State)

/-- The compartment that a step of the core calls `compartment_forward_exit` for. -/
def exited (core : Nesting.State) : Option Nat :=
  match core.received with
  | o :: rest =>
      if rest.length = s.core.received.length ∧ o.function = .forwardExit then some o.self else none
  | [] => none

/-- What `compartment_enter` returns in a step of the core. -/
def returned (core : Nesting.State) : Option Nat :=
  match core.returns with
  | r :: rest => if rest.length = s.core.returns.length then some r.result else none
  | [] => none

/-- After `invalidate`, if the step has called it. -/
def validAfter (core : Nesting.State) : Nat → Bool :=
  match s.exited core with
  | some self => Function.update s.valid self false
  | none => s.valid

/-- A step of the core, with what it means for the compartments. -/
def follow (core : Nesting.State) : State where
  core
  valid := s.validAfter core
  outcomes :=
    match s.returned core, s.core.active with
    | some result, a :: _ => ⟨a.self, result != 0, s.validAfter core a.self⟩ :: s.outcomes
    | _, _ => s.outcomes
  entered :=
    match core.inKernel, core.active with
    | false, a :: _ => ⟨a.self, s.validAfter core a.self⟩ :: s.entered
    | _, _ => s.entered

def step : Event → Option State
  | .invoke self ret =>
      if s.valid self = false then
        if s.core.inKernel then
          some { s with outcomes := ⟨self, false, s.valid self⟩ :: s.outcomes }
        else none
      else (s.core.step K (.enter self ret)).map s.follow
  | .other (.enter _ _) => none
  | .other e => (s.core.step K e).map s.follow

/-- The calling convention of the core. -/
def Follows : Event → Prop
  | .invoke self ret => s.core.Follows (.enter self ret)
  | .other e => s.core.Follows e

/-- No other invocation of the innermost compartment is active. -/
def Alone : Prop :=
  match s.core.active with
  | [] => True
  | a :: rest => ∀ b ∈ rest, b.self ≠ a.self

/-- Only a compartment that is not active further out is given up. -/
def Careful : Event → Prop
  | .other (.syscall _ _ _ reason _) => exits reason = true → s.Alone
  | .other (.abort _) => s.Alone
  | _ => True

instance : Decidable s.Alone :=
  match h : s.core.active with
  | [] => isTrue (by rw [Alone, h]; trivial)
  | a :: rest => decidable_of_iff (∀ b ∈ rest, b.self ≠ a.self) (by rw [Alone, h])

instance (e : Event) : Decidable (s.Follows e) :=
  match e with
  | .invoke self ret => inferInstanceAs (Decidable (s.core.Follows (.enter self ret)))
  | .other e => inferInstanceAs (Decidable (s.core.Follows e))

instance (e : Event) : Decidable (s.Careful e) :=
  match e with
  | .invoke _ _ => inferInstanceAs (Decidable True)
  | .other (.syscall _ _ _ reason _) => inferInstanceAs (Decidable (exits reason = true → s.Alone))
  | .other (.abort _) => inferInstanceAs (Decidable s.Alone)
  | .other (.compute _) => inferInstanceAs (Decidable True)
  | .other (.enter _ _) => inferInstanceAs (Decidable True)
  | .other (.execute _) => inferInstanceAs (Decidable True)
  | .other .pageFault => inferInstanceAs (Decidable True)
  | .other .resume => inferInstanceAs (Decidable True)

section Effects

variable {K} {s} {t : State} {core : Nesting.State} {a : Activation} {rest : List Activation}
variable {result : Nat}

theorem step_other {e : Nesting.Event} (run : s.step K (.other e) = some t) :
    ∃ core, s.core.step K e = some core ∧ (∀ self ret, e ≠ .enter self ret) ∧
      t = s.follow core := by
  cases e with
  | enter => cases run
  | _ =>
      obtain ⟨core, next, rfl⟩ := Option.map_eq_some_iff.mp run
      refine ⟨core, next, ?_, rfl⟩
      intro _ _ no
      cases no

theorem exited_of_same (h : core.received = s.core.received) : s.exited core = none := by
  rw [exited, h]
  split
  next o rest eq =>
    rw [eq, List.length_cons]
    exact if_neg fun ⟨no, _⟩ => absurd no (Nat.ne_of_lt (Nat.lt_succ_self _))
  next => rfl

theorem exited_cons {o : Nesting.Received} (h : core.received = o :: s.core.received) :
    s.exited core = if o.function = .forwardExit then some o.self else none := by
  rw [exited, h]
  simp only [true_and]

theorem returned_of_same (h : core.returns = s.core.returns) : s.returned core = none := by
  rw [returned, h]
  split
  next r rest eq =>
    rw [eq, List.length_cons]
    exact if_neg (Nat.ne_of_lt (Nat.lt_succ_self _))
  next => rfl

theorem returned_of_leaves (h : Nesting.State.Leaves s.core core a rest result) :
    s.returned core = some result := by
  obtain ⟨-, -, -, r, returns, rfl⟩ := h
  rw [returned, returns]
  exact if_pos rfl

theorem validAfter_of_none (h : s.exited core = none) : s.validAfter core = s.valid := by
  rw [validAfter, h]

theorem validAfter_of_same (h : core.received = s.core.received) : s.validAfter core = s.valid :=
  validAfter_of_none (exited_of_same h)

/-- An exit makes the innermost compartment invalid. -/
theorem validAfter_of_exits (h : Nesting.State.Exits s.core core a rest)
    (inv : Nesting.Inv K core) :
    s.validAfter core = Function.update s.valid a.self false := by
  obtain ⟨-, self, received⟩ := h
  have same : self = a.self := inv.received _ (by rw [received]; exact List.mem_cons_self)
  rw [validAfter, exited_cons received, if_pos rfl, same]

end Effects

end State

/-- All that is active is valid. -/
structure Inv (K : KernelCore) (s : State) : Prop where
  core : Nesting.Inv K s.core
  active : ∀ a ∈ s.core.active, s.valid a.self = true
  outcomes : ∀ o ∈ s.outcomes, o.success = true → o.valid = true
  entered : ∀ e ∈ s.entered, e.valid = true

namespace Inv

variable {K : KernelCore} {s t : State} {core : Nesting.State} {a : Activation}
variable {rest : List Activation}

theorem initial (kernel : Nesting.Kernel) : Inv K (.initial kernel) := by
  refine ⟨Nesting.Inv.initial kernel, ?_, ?_, ?_⟩
  all_goals exact fun _ no => (List.not_mem_nil no).elim

/-- What is active after a step has to be valid, and so has what returned with success. -/
theorem follow (h : Inv K s) (inv : Nesting.Inv K core)
    (active : ∀ a ∈ core.active, s.validAfter core a.self = true)
    (success : ∀ result a rest, s.returned core = some result → s.core.active = a :: rest →
      (result != 0) = true → s.validAfter core a.self = true) : Inv K (s.follow core) := by
  refine ⟨inv, active, ?_, ?_⟩
  · show ∀ o ∈ State.outcomes (s.follow core), _
    rw [State.follow]
    dsimp only
    split
    next result a rest returned before =>
      exact List.forall_mem_cons.mpr ⟨success result a rest returned before, h.outcomes⟩
    next => exact h.outcomes
  · show ∀ e ∈ State.entered (s.follow core), _
    rw [State.follow]
    dsimp only
    split
    next a rest kernel now =>
      refine List.forall_mem_cons.mpr ⟨active a ?_, h.entered⟩
      rw [now]
      exact List.mem_cons_self
    next => exact h.entered

/-- A step that returns from nothing and makes nothing invalid. -/
theorem quiet (h : Inv K s) (inv : Nesting.Inv K core) (none : s.exited core = none)
    (returns : core.returns = s.core.returns)
    (active : ∀ a ∈ core.active, s.valid a.self = true) : Inv K (s.follow core) := by
  refine h.follow inv ?_ ?_
  · rw [State.validAfter_of_none none]
    exact active
  · intro result a rest returned
    rw [State.returned_of_same returns] at returned
    cases returned

theorem leave (h : Inv K s) (inv : Nesting.Inv K core) {result : Nat}
    (leaves : Nesting.State.Leaves s.core core a rest result)
    (received : core.received = s.core.received) : Inv K (s.follow core) := by
  obtain ⟨before, after, -⟩ := leaves
  have valid : ∀ b ∈ a :: rest, s.valid b.self = true := before ▸ h.active
  refine h.follow inv ?_ ?_
  · rw [after, State.validAfter_of_same received]
    exact fun b mem => valid b (List.mem_cons_of_mem _ mem)
  · intro _ b _ _ active _
    rw [State.validAfter_of_same received]
    exact h.active b (by rw [active]; exact List.mem_cons_self)

theorem exit (h : Inv K s) (inv : Nesting.Inv K core)
    (exits : Nesting.State.Exits s.core core a rest) (alone : s.Alone) : Inv K (s.follow core) := by
  have invalid := State.validAfter_of_exits exits inv
  have returned := State.returned_of_leaves exits.1
  obtain ⟨⟨before, after, -⟩, -⟩ := exits
  have valid : ∀ b ∈ a :: rest, s.valid b.self = true := before ▸ h.active
  rw [State.Alone, before] at alone
  refine h.follow inv ?_ ?_
  · rw [after, invalid]
    intro b mem
    rw [Function.update_of_ne (alone b mem)]
    exact valid b (List.mem_cons_of_mem _ mem)
  · intro result _ _ eq _ success
    rw [returned] at eq
    cases eq
    cases success

/-- A step of the core, which enters only valid compartments. -/
theorem stepCore {e : Nesting.Event} (h : Inv K s) (follows : s.core.Follows e)
    (careful : s.Careful (.other e)) (entry : ∀ self ret, e = .enter self ret → s.valid self = true)
    (run : s.core.step K e = some core) : Inv K (s.follow core) := by
  have inv := h.core.step ⟨follows, run⟩
  cases e with
  | compute call =>
      obtain ⟨-, ⟨⟩⟩ := Option.ite_none_right_eq_some.mp run
      exact h.quiet inv (State.exited_of_same rfl) rfl h.active
  | enter self ret =>
      obtain ⟨-, ⟨⟩⟩ := Option.ite_none_right_eq_some.mp run
      refine h.quiet inv (State.exited_of_same rfl) rfl ?_
      exact List.forall_mem_cons.mpr ⟨entry self ret rfl, h.active⟩
  | execute memory =>
      obtain ⟨-, ⟨⟩⟩ := Option.ite_none_left_eq_some.mp run
      exact h.quiet inv (State.exited_of_same rfl) rfl h.active
  | syscall rsp rflags saved reason callee =>
      obtain ⟨a, rest, ⟨-, leaves, received⟩ | ⟨default, exits⟩ |
        ⟨f, handler, self, before, found, -, after, returns, received⟩⟩ :=
          Nesting.State.step_syscall run
      · exact h.leave inv leaves received
      · exact h.exit inv exits (careful default)
      · have valid : ∀ b ∈ a :: rest, s.valid b.self = true := before ▸ h.active
        refine h.quiet inv ?_ returns ?_
        · rw [State.exited_cons received]
          exact if_neg (Nesting.forwarded_ne_forwardExit found)
        · rw [after]
          exact List.forall_mem_cons.mpr (List.forall_mem_cons.mp valid)
  | pageFault =>
      obtain ⟨-, run⟩ := Option.ite_none_left_eq_some.mp run
      split at run
      next => cases run
      next a rest before =>
        cases run
        refine h.quiet inv ?_ rfl h.active
        rw [State.exited_cons rfl]
        exact if_neg fun no => by cases no
  | resume =>
      obtain ⟨-, run⟩ := Option.ite_none_right_eq_some.mp run
      split at run
      next => cases run
      next a rest before =>
        obtain ⟨i, -, rfl⟩ := Option.map_eq_some_iff.mp run
        have valid : ∀ b ∈ a :: rest, s.valid b.self = true := before ▸ h.active
        refine h.quiet inv (State.exited_of_same rfl) rfl ?_
        exact List.forall_mem_cons.mpr (List.forall_mem_cons.mp valid)
  | abort callee =>
      obtain ⟨a, rest, exits⟩ := Nesting.State.step_abort run
      exact h.exit inv exits careful

/-- Step lemma. -/
theorem step {e : Event} (h : Inv K s) (follows : s.Follows e) (careful : s.Careful e)
    (run : s.step K e = some t) : Inv K t := by
  cases e with
  | invoke self ret =>
      rw [State.step] at run
      split at run
      next =>
        obtain ⟨-, ⟨⟩⟩ := Option.ite_none_right_eq_some.mp run
        refine ⟨h.core, h.active, ?_, h.entered⟩
        exact List.forall_mem_cons.mpr ⟨fun no => Bool.noConfusion no, h.outcomes⟩
      next valid =>
        obtain ⟨core, next, rfl⟩ := Option.map_eq_some_iff.mp run
        refine h.stepCore (e := .enter self ret) follows trivial ?_ next
        rintro _ _ ⟨⟩
        exact Bool.not_eq_false _ ▸ valid
  | other e =>
      obtain ⟨core, next, entry, rfl⟩ := State.step_other run
      exact h.stepCore follows careful (fun self ret eq => absurd eq (entry self ret)) next

/-- Run lemma. -/
theorem run {kernel : Nesting.Kernel} {events : List Event}
    (run : Run (Within (fun s e => s.Follows e ∧ s.Careful e) (State.step K)) (.initial kernel)
      events s) : Inv K s :=
  run.invariant (Inv K) (fun _ _ _ h next => h.step next.1.1 next.1.2 next.2) (initial kernel)

/-- Giving up a compartment that is active further out leaves it active and invalid. -/
theorem stale_of_exit (inv : Nesting.Inv K core)
    (exits : Nesting.State.Exits s.core core a rest) (shared : ¬ s.Alone) :
    ∃ b ∈ core.active, s.validAfter core b.self = false := by
  have invalid := State.validAfter_of_exits exits inv
  obtain ⟨⟨before, after, -⟩, -⟩ := exits
  rw [State.Alone, before] at shared
  push Not at shared
  obtain ⟨b, mem, same⟩ := shared
  refine ⟨b, after ▸ mem, ?_⟩
  rw [invalid, same, Function.update_self]

theorem stale_of_careless {e : Event} (h : Inv K s) (follows : s.Follows e)
    (careless : ¬ s.Careful e) (run : s.step K e = some t) :
    ∃ b ∈ t.core.active, t.valid b.self = false := by
  cases e with
  | invoke => exact absurd trivial careless
  | other e =>
      obtain ⟨core, next, -, rfl⟩ := State.step_other run
      have inv := h.core.step (e := e) ⟨follows, next⟩
      cases e with
      | syscall rsp rflags saved reason callee =>
          obtain ⟨default, shared⟩ := Classical.not_imp.mp careless
          obtain ⟨a, rest, ⟨returns, -⟩ | ⟨-, exits⟩ | ⟨f, _, _, _, found, -⟩⟩ :=
            Nesting.State.step_syscall next
          · rw [returns] at default
            cases default
          · exact stale_of_exit inv exits shared
          · rw [Nesting.exits, found, Option.isNone_some, Bool.and_false] at default
            cases default
      | abort callee =>
          obtain ⟨a, rest, exits⟩ := Nesting.State.step_abort next
          exact stale_of_exit inv exits careless
      | _ => exact absurd trivial careless

end Inv

/-- For every tree of nested invocations and callbacks, any of which may end by return, exit or
abort, in which no invocation is given up while another one of the same compartment is active: an
invocation that succeeds leaves a valid compartment, and no code runs of a compartment that has
been given up. The first invocation that is given up otherwise leaves an invalid compartment
running. -/
theorem invoke_success_valid (K : KernelCore) (kernel : Nesting.Kernel) (events : List Event)
    (s : State) (run : Run (Within (fun s e => s.Follows e ∧ s.Careful e) (State.step K))
      (.initial kernel) events s) :
    (∀ o ∈ s.outcomes, o.success = true → o.valid = true) ∧ (∀ e ∈ s.entered, e.valid = true) ∧
      ∀ e t, s.Follows e → ¬ s.Careful e → s.step K e = some t →
        ∃ a ∈ t.core.active, t.valid a.self = false := by
  have inv := Inv.run run
  refine ⟨inv.outcomes, inv.entered, ?_⟩
  intro e t follows careless next
  exact inv.stale_of_careless follows careless next

/-- A callback invokes a second compartment, which returns; the next callback is aborted. -/
def sampleInvocations : List Event :=
  [.invoke 0x100 0x41, .other (Nesting.sampleSyscall 5), .invoke 0x200 0x42,
    .other (Nesting.sampleSyscall 1), .other .resume, .other (Nesting.sampleSyscall 5),
    .other (.abort ⟨fun _ => 0x41, 0⟩), .invoke 0x100 0x43]

theorem invoke_success_valid_sample : ∃ s,
    Run (Within (fun s e => s.Follows e ∧ s.Careful e) (State.step KernelCore.sampleCore))
      (.initial Nesting.sampleKernel) sampleInvocations s ∧
      s.outcomes = [⟨0x100, false, false⟩, ⟨0x100, false, false⟩, ⟨0x200, true, true⟩] ∧
      ∀ e ∈ s.entered, e.valid = true := by
  have done : (simulate (fun s e => s.Follows e ∧ s.Careful e)
      (State.step KernelCore.sampleCore) sampleInvocations (.initial Nesting.sampleKernel)).map
        (·.outcomes) =
      some [⟨0x100, false, false⟩, ⟨0x100, false, false⟩, ⟨0x200, true, true⟩] := by
    decide +kernel
  obtain ⟨s, hs, outcomes⟩ := Option.map_eq_some_iff.mp done
  have run := simulate_run hs
  exact ⟨s, run, outcomes, (invoke_success_valid _ _ _ s run).2.1⟩

/-- The stack while the inner invocation is given up: the frame of the outer one, and the address
the inner one returns to. -/
def sampleStack (a : Nat) : Nat :=
  if 0x8FB0 ≤ a then [0x100, 0, 0x202, 1, 2, 3, 4, 5, 6, 0x41].getD ((a - 0x8FB0) / 8) 0 else 0x42

/-- A callback invokes its own compartment again, which exits; the callback and the outer
invocation then return. -/
def sampleReentrance : List Event :=
  [.invoke 0x100 0x41, .other (Nesting.sampleSyscall 5), .invoke 0x100 0x42,
    .other (.syscall 0x3000 0x246 ⟨0, 0, 0, 0, 0, 0⟩ 0 ⟨sampleStack, 0⟩), .other .resume,
    .other (Nesting.sampleSyscall 1)]

/-- Code of the compartment is resumed after `compartment_forward_exit`, and the outer invocation
succeeds with an invalid compartment. -/
theorem invoke_succeeds_after_exit : ∃ s,
    Run (Within State.Follows (State.step KernelCore.sampleCore)) (.initial Nesting.sampleKernel)
      sampleReentrance s ∧
      s.outcomes = [⟨0x100, true, false⟩, ⟨0x100, false, false⟩] ∧
      s.entered = [⟨0x100, false⟩, ⟨0x100, true⟩, ⟨0x100, true⟩] := by
  have done : (simulate State.Follows (State.step KernelCore.sampleCore) sampleReentrance
      (.initial Nesting.sampleKernel)).map (fun s => (s.outcomes, s.entered)) =
      some ([⟨0x100, true, false⟩, ⟨0x100, false, false⟩],
        [⟨0x100, false⟩, ⟨0x100, true⟩, ⟨0x100, true⟩]) := by decide +kernel
  obtain ⟨s, hs, seen⟩ := Option.map_eq_some_iff.mp done
  obtain ⟨outcomes, entered⟩ := Prod.mk.inj seen
  exact ⟨s, simulate_run hs, outcomes, entered⟩

end Monza.Invocation
