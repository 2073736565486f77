import Mathlib.Algebra.BigOperators.Group.Finset.Basic
import Mathlib.Data.Fintype.BigOperators
import Monza.Lib.Transition
import Monza.Output

/-!
# The console

`kwritev_stdout` writes its buffers to the serial port byte by byte, under a spinlock, and so does
`kwritev_stdout_protected` behind its checks. Every access to the lock or to the port is a step, and
the steps of the cores interleave in any way. The text of a call is what its loop reads.

An exception can be raised anywhere, also inside the output, and what is reported about it is
written with the same function on the same core. The calls of a core are therefore a stack of which
the first one runs. Most exceptions are fatal: their handlers write and then stop, so that what they
have interrupted never goes on.
-/

namespace Monza.Console

abbrev Byte := BitVec 8

abbrev WriteBuffers := List (List Byte)

/-- The inner loop: what is left of a buffer, its size, and the variables of the outer loop. -/
structure Inner where
  chars : List Byte
  size : Nat
  rest : WriteBuffers
  total : Nat
  deriving DecidableEq, Repr

/-- Where a call of either function is. -/
inductive Place where
  | acquire
  | nextBuffer (rest : WriteBuffers) (total : Nat)
  | nextChar (inner : Inner)
  | poll (c : Byte) (inner : Inner)
  | send (c : Byte) (inner : Inner)
  deriving DecidableEq, Repr

structure Call where
  data : WriteBuffers
  place : Place
  deriving DecidableEq, Repr

/-- A call that has returned. -/
structure Returned (κ : Type) where
  core : κ
  data : WriteBuffers
  length : Nat
  deriving DecidableEq, Repr

/-- The lock, the transmitter of the port with the line behind it, the calls of each core, and those
that a fatal exception has cut off. -/
structure State (κ : Type) where
  lock : Nat
  holding : Option Byte
  line : List Byte
  calls : κ → List Call
  lost : κ → List Call
  returned : List (Returned κ)

/-- The functions are called, a fatal exception is raised, a call takes a step, the port sends. -/
inductive Event (κ : Type) where
  | kwritevStdout (c : κ) (data : WriteBuffers)
  | kwritevStdoutProtected (c : κ) (check : Result Unit) (data : WriteBuffers)
  | fatal (c : κ)
  | step (c : κ)
  | transmit
  deriving DecidableEq

/-- `output_log_entry`: the buffers of an entry. -/
def outputLogEntry (entry : List Byte) : WriteBuffers := [entry, [0x0a]]

/-- What is logged about data that must not be printed. -/
def protectedDataEntry : List Byte :=
  "ERROR: Compartment: Attempt to print protected data.".toList.map fun ch =>
    BitVec.ofNat 8 ch.toNat

/-- What `kwritev_stdout_protected` writes after its checks: the data, or the entry about it before
the callback is aborted. A fault inside of the checks is an exception. -/
def protectedText (check : Result Unit) (data : WriteBuffers) : Option WriteBuffers :=
  match check with
  | .ok _ => some data
  | .error .callbackAborted => some (outputLogEntry protectedDataEntry)
  | .error _ => none

variable {κ : Type}

def State.initial : State κ := ⟨0, none, [], fun _ => [], fun _ => [], []⟩

section Steps

variable [DecidableEq κ]

/-- The first call of a core goes to another place. -/
@[simps] def State.move (s : State κ) (c : κ) (call : Call) (below : List Call) (place : Place) :
    State κ :=
  { s with calls := Function.update s.calls c (⟨call.data, place⟩ :: below) }

/-- A core calls the function, or is interrupted and calls it. -/
@[simps] def State.begin (s : State κ) (c : κ) (data : WriteBuffers) : State κ :=
  { s with calls := Function.update s.calls c (⟨data, .acquire⟩ :: s.calls c) }

/-- The handler of a fatal exception never comes back to what it has interrupted. -/
@[simps] def State.fatal (s : State κ) (c : κ) : State κ :=
  { s with
    calls := Function.update s.calls c []
    lost := Function.update s.lost c (s.calls c ++ s.lost c) }

/-- The port sends a byte. -/
@[simps] def State.transmit (s : State κ) (b : Byte) : State κ :=
  { s with holding := none, line := s.line ++ [b] }

/-- One step of the first call of a core. -/
def State.stepCall (s : State κ) (c : κ) (call : Call) (below : List Call) : State κ :=
  match call.place with
  | .acquire =>
      -- The exchange stores in either case.
      if s.lock = 0 then { s.move c call below (.nextBuffer call.data 0) with lock := 1 }
      else { s with lock := 1 }
  | .nextBuffer [] total =>
      { s with
        lock := 0
        calls := Function.update s.calls c below
        returned := s.returned ++ [⟨c, call.data, total⟩] }
  | .nextBuffer (buffer :: rest) total =>
      s.move c call below (.nextChar ⟨buffer, buffer.length, rest, total⟩)
  | .nextChar ⟨[], size, rest, total⟩ => s.move c call below (.nextBuffer rest (total + size))
  | .nextChar ⟨b :: chars, size, rest, total⟩ =>
      s.move c call below (.poll b ⟨chars, size, rest, total⟩)
  | .poll b inner => if s.holding = none then s.move c call below (.send b inner) else s
  | .send b inner => { s.move c call below (.nextChar inner) with holding := some b }

def State.step (s : State κ) : Event κ → Option (State κ)
  | .kwritevStdout c data => some (s.begin c data)
  | .kwritevStdoutProtected c check data => (protectedText check data).map (s.begin c)
  | .fatal c => some (s.fatal c)
  | .step c =>
      match s.calls c with
      | [] => none
      | call :: below => some (s.stepCall c call below)
  | .transmit => s.holding.map s.transmit

abbrev Run (s : State κ) (events : List (Event κ)) (t : State κ) : Prop :=
  Transition.Run (fun s e t => State.step s e = some t) s events t

end Steps

/-- What has been given to the port. -/
def State.output (s : State κ) : List Byte := s.line ++ s.holding.toList

/-- The texts of the calls that have returned. -/
def State.messages (s : State κ) : List Byte := (s.returned.map fun r => r.data.flatten).flatten

/-- All calls of a core that have not returned. -/
def State.pending (s : State κ) (c : κ) : List Call := s.calls c ++ s.lost c

/-- A call of the core has the lock and does not run: it was interrupted. -/
def State.Stuck (s : State κ) (c : κ) : Prop :=
  ∃ call ∈ (s.calls c).tail ++ s.lost c, call.place ≠ .acquire

/-! ### The data of a compartment -/

section Protected

variable {P : Platform} {m : OwnershipMap} {mem : KernelMemory} {owner : CompartmentOwner}

/-- The bytes of the buffers that a compartment describes. -/
def protectedBuffers (mem : KernelMemory) (data size : Nat) : WriteBuffers :=
  (mem.buffers data size).map fun b => (elementAddresses 1 b.data b.size).map mem.bytes

/-- The loop over readable buffers, when it gets to its end. -/
theorem foldlM_printBuffer_eq_ok {spans : List Nat} {out after : Monza.Output}
    (readable : ∀ a ∈ spans, ∃ b, mem.readSpan a = .ok b) (small : out.totalLength < 2 ^ 64)
    (h : spans.foldlM (printBuffer mem) out = .ok after) :
    let addresses := (spans.filterMap fun a => (mem.readSpan a).toOption).flatMap fun b =>
      elementAddresses 1 b.data b.size
    after.sent = out.sent ++ addresses ∧
      after.totalLength = u64 (out.totalLength + addresses.length) := by
  induction spans generalizing out with
  | nil =>
      cases h
      simp [u64_of_lt small]
  | cons a spans ih =>
      obtain ⟨b, hb⟩ := readable a List.mem_cons_self
      have size : (elementAddresses 1 b.data b.size).length = b.size := by
        rw [elementAddresses_bytes (KernelMemory.readSpan_lt hb).2, List.length_map,
          List.length_range]
      rw [List.foldlM_cons, printBuffer_of_readSpan hb] at h
      split at h
      case isTrue mapped =>
          obtain ⟨sent, length⟩ :=
            ih (fun a ha => readable a (List.mem_cons_of_mem _ ha)) (u64_lt _) h
          rw [List.filterMap_cons_some (b := b) (by rw [hb]; rfl), List.flatMap_cons]
          refine ⟨by rw [sent, List.append_assoc], ?_⟩
          rw [length, List.length_append, size, u64, u64, u64, Nat.mod_add_mod, Nat.add_assoc]
      case isFalse unmapped => cases h

/-- What is sent for a compartment is the text that its call has here, and the length is that of the
text, as far as it fits. -/
theorem protectedText_of_kwritevStdoutProtected {data size : Nat} {out : Monza.Output}
    (h : Monza.kwritevStdoutProtected P m mem owner data size = .ok out) :
    ∃ text, protectedText (checkStdout P m mem owner data size) (protectedBuffers mem data size) =
        some text ∧ text.flatten = out.sent.map mem.bytes ∧
      out.totalLength = u64 text.flatten.length := by
  rw [Monza.kwritevStdoutProtected] at h
  cases check : checkStdout P m mem owner data size with
  | error f =>
      rw [check] at h
      cases h
  | ok u =>
      rw [check] at h
      obtain ⟨sent, length⟩ := foldlM_printBuffer_eq_ok (fun a ha =>
        ((checkStdout_eq_ok_iff.mp check).buffers a ha).imp fun b hb => hb.1) (by decide) h
      have text : (protectedBuffers mem data size).flatten = out.sent.map mem.bytes := by
        rw [sent, List.nil_append, List.map_flatMap, protectedBuffers, ← List.flatMap_def]
        rfl
      refine ⟨_, rfl, text, ?_⟩
      rw [text, List.length_map, length, sent, List.nil_append, Nat.zero_add]

end Protected

/-! ### The calls -/

namespace Place

/-- The bytes that are still to be written. -/
@[simp] def remaining : Place → List Byte
  | acquire => []
  | nextBuffer rest _ => rest.flatten
  | nextChar inner => inner.chars ++ inner.rest.flatten
  | poll b inner => b :: (inner.chars ++ inner.rest.flatten)
  | send b inner => b :: (inner.chars ++ inner.rest.flatten)

/-- What the call is going to return. -/
@[simp] def length : Place → Nat
  | acquire => 0
  | nextBuffer rest total => total + rest.flatten.length
  | nextChar inner => inner.total + inner.size + inner.rest.flatten.length
  | poll _ inner => inner.total + inner.size + inner.rest.flatten.length
  | send _ inner => inner.total + inner.size + inner.rest.flatten.length

/-- The transmitter is still empty when the byte is stored. -/
@[simp] def Fits (holding : Option Byte) : Place → Prop
  | send _ _ => holding = none
  | _ => True

end Place

/-- The call has the lock. -/
structure Call.Inside (call : Call) (holding : Option Byte) : Prop where
  entered : call.place ≠ .acquire
  length : call.place.length = call.data.flatten.length
  fits : call.place.Fits holding

/-- A call of a core has the lock: it has written a part of its text behind those of the calls that
have returned, and all others wait. -/
structure State.Holds (s : State κ) (c : κ) (above : List Call) (call : Call)
    (below : List Call) : Prop where
  lock : s.lock = 1
  here : s.pending c = above ++ call :: below
  mine : ∀ other ∈ above ++ below, other.place = .acquire
  others : ∀ d, d ≠ c → ∀ other ∈ s.pending d, other.place = .acquire
  output : ∃ part, s.output = s.messages ++ part ∧ part ++ call.place.remaining = call.data.flatten

/-- Nobody has the lock. -/
structure State.Free (s : State κ) : Prop where
  lock : s.lock = 0
  waiting : ∀ c, ∀ call ∈ s.pending c, call.place = .acquire
  output : s.output = s.messages

inductive Inv (s : State κ) : Prop
  | free (h : s.Free)
  | held (c : κ) (above : List Call) (call : Call) (below : List Call)
      (h : s.Holds c above call below) (inside : call.Inside s.holding)

theorem Inv.initial : Inv (State.initial : State κ) :=
  .free ⟨rfl, fun _ _ mem => absurd mem List.not_mem_nil, rfl⟩

theorem output_transmit {s : State κ} {b : Byte} (full : s.holding = some b) :
    (s.transmit b).output = s.output := by
  simp [State.output, full]

theorem Inv.transmit {s : State κ} (h : Inv s) {b : Byte} (full : s.holding = some b) :
    Inv (s.transmit b) := by
  obtain free | ⟨c, above, call, below, holds, entered, length, fits⟩ := h
  · exact .free ⟨free.lock, free.waiting, (output_transmit full).trans free.output⟩
  · refine .held c above call below ⟨holds.lock, holds.here, holds.mine, holds.others, ?_⟩
      ⟨entered, length, ?_⟩
    · rw [output_transmit full]
      exact holds.output
    · cases place : call.place with
      | send => rfl
      | _ => trivial

/-- The core that has the lock waits for it. -/
structure State.Dead (s : State κ) : Prop where
  inv : Inv s
  lock : s.lock = 1
  waiting : ∀ c, ∀ call below, s.calls c = call :: below → call.place = .acquire

theorem pending_of_calls {s : State κ} {c : κ} {call : Call} {rest : List Call}
    (here : s.calls c = call :: rest) : s.pending c = call :: (rest ++ s.lost c) := by
  rw [State.pending, here, List.cons_append]

section Invariant

variable [DecidableEq κ] {s t : State κ} {c : κ} {call : Call} {above below rest : List Call}

/-- Waiting calls, when the calls of one core are replaced. -/
theorem waiting_update {calls : κ → List Call} (mine : ∀ other ∈ below, other.place = .acquire)
    (others : ∀ d, d ≠ c → ∀ other ∈ calls d, other.place = .acquire) :
    ∀ d, ∀ other ∈ Function.update calls c below d, other.place = .acquire :=
  (Function.forall_update_iff calls fun _ list => ∀ other ∈ list, other.place = .acquire).mpr
    ⟨mine, others⟩

theorem pending_of_update (s t : State κ) (c : κ) {list : List Call}
    (calls : t.calls = Function.update s.calls c list) (lost : t.lost = s.lost) :
    t.pending = Function.update s.pending c (list ++ s.lost c) := by
  funext d
  rw [State.pending, calls, lost]
  by_cases same : d = c
  · rw [same, Function.update_self, Function.update_self]
  · rw [Function.update_of_ne same, Function.update_of_ne same, State.pending]

theorem pending_begin (c : κ) (data : WriteBuffers) :
    (s.begin c data).pending = Function.update s.pending c (⟨data, .acquire⟩ :: s.pending c) :=
  pending_of_update s (s.begin c data) c rfl rfl

theorem pending_move_self (s : State κ) (c : κ) (call : Call) (rest : List Call) (place : Place) :
    (s.move c call rest place).pending c = ⟨call.data, place⟩ :: (rest ++ s.lost c) := by
  simp [State.pending]

theorem pending_move_of_ne {d : κ} (ne : d ≠ c) (place : Place) :
    (s.move c call rest place).pending d = s.pending d := by
  simp [State.pending, Function.update_of_ne ne]

/-- A fatal exception lets no call return. -/
theorem pending_fatal (c : κ) : (s.fatal c).pending = s.pending := by
  funext d
  by_cases same : d = c
  · subst same
    simp [State.pending]
  · simp [State.pending, Function.update_of_ne same]

theorem stepCall_lost : (s.stepCall c call rest).lost = s.lost := by
  rw [State.stepCall]
  split
  case h_1 => split <;> rfl
  case h_6 => split <;> rfl
  all_goals rfl

theorem stepCall_of_busy (waiting : call.place = .acquire) (lock : s.lock = 1) :
    s.stepCall c call rest = s := by
  rw [State.stepCall, waiting]
  simp only [lock, Nat.one_ne_zero, if_false]
  rw [← lock]

/-- The call with the lock goes to another place. -/
theorem State.Holds.move (h : s.Holds c [] call (rest ++ s.lost c)) {place : Place}
    (same : place.remaining = call.place.remaining) :
    (s.move c call rest place).Holds c [] ⟨call.data, place⟩ (rest ++ s.lost c) where
  lock := h.lock
  here := pending_move_self s c call rest place
  mine := h.mine
  others d ne other mem := by
    rw [pending_move_of_ne ne] at mem
    exact h.others d ne other mem
  output := by
    rw [same]
    exact h.output

/-- The last step of a call releases the lock. -/
theorem State.Holds.release {data : WriteBuffers} {total : Nat}
    (h : s.Holds c [] ⟨data, .nextBuffer [] total⟩ (rest ++ s.lost c)) :
    (s.stepCall c ⟨data, .nextBuffer [] total⟩ rest).Free where
  lock := rfl
  waiting := by
    rw [pending_of_update s (s.stepCall c ⟨data, .nextBuffer [] total⟩ rest) c rfl rfl]
    exact waiting_update h.mine h.others
  output := by
    obtain ⟨part, written, whole⟩ := h.output
    obtain rfl : part = data.flatten := by simpa using whole
    simpa [State.stepCall, State.output, State.messages] using written

/-- A byte is stored into the empty transmitter. -/
theorem State.Holds.send {data : WriteBuffers} {b : Byte} {inner : Inner}
    (h : s.Holds c [] ⟨data, .send b inner⟩ (rest ++ s.lost c)) (empty : s.holding = none) :
    (s.stepCall c ⟨data, .send b inner⟩ rest).Holds c [] ⟨data, .nextChar inner⟩
      (rest ++ s.lost c) where
  lock := h.lock
  here := pending_move_self s c _ rest _
  mine := h.mine
  others d ne other mem := by
    change other ∈ (s.move c ⟨data, .send b inner⟩ rest (.nextChar inner)).pending d at mem
    rw [pending_move_of_ne ne] at mem
    exact h.others d ne other mem
  output := by
    obtain ⟨part, written, whole⟩ := h.output
    have line : s.line = s.messages ++ part := by simpa [State.output, empty] using written
    refine ⟨part ++ [b], ?_, by simpa using whole⟩
    rw [← List.append_assoc]
    exact congrArg (· ++ [b]) line

theorem Inv.stepInside (h : s.Holds c [] call (rest ++ s.lost c)) (inside : call.Inside s.holding) :
    Inv (s.stepCall c call rest) := by
  obtain ⟨entered, length, fits⟩ := inside
  obtain ⟨data, place⟩ := call
  cases place with
  | acquire => exact absurd rfl entered
  | nextBuffer buffers total =>
      cases buffers with
      | nil => exact .free h.release
      | cons buffer buffers =>
          refine .held c [] _ _ (h.move rfl) ⟨by simp, ?_, trivial⟩
          simpa [Nat.add_assoc] using length
  | nextChar inner =>
      obtain ⟨chars, size, buffers, total⟩ := inner
      cases chars with
      | nil => exact .held c [] _ _ (h.move rfl) ⟨by simp, length, trivial⟩
      | cons b chars => exact .held c [] _ _ (h.move rfl) ⟨by simp, length, trivial⟩
  | poll b inner =>
      by_cases empty : s.holding = none
      · simp only [State.stepCall, empty, if_true]
        exact .held c [] _ _ (h.move rfl) ⟨by simp, length, empty⟩
      · simp only [State.stepCall, empty, if_false]
        exact .held c [] _ _ h ⟨entered, length, fits⟩
  | send b inner => exact .held c [] _ _ (h.send fits) ⟨by simp, length, trivial⟩

/-- The first call of a core takes the lock. -/
theorem State.Free.take (h : s.Free) (here : s.calls c = call :: rest) :
    Inv (s.stepCall c call rest) := by
  have mine := h.waiting c
  rw [pending_of_calls here, List.forall_mem_cons] at mine
  rw [State.stepCall, mine.1]
  simp only [h.lock, if_true]
  refine .held c [] ⟨call.data, .nextBuffer call.data 0⟩ (rest ++ s.lost c)
    ⟨rfl, ?_, mine.2, fun d ne other mem => ?_, ?_⟩ ⟨by simp, by simp, trivial⟩
  · exact pending_move_self s c call rest _
  · change other ∈ (s.move c call rest (.nextBuffer call.data 0)).pending d at mem
    rw [pending_move_of_ne ne] at mem
    exact h.waiting d other mem
  · exact ⟨[], by rw [List.append_nil]; exact h.output, rfl⟩

/-- The first call of a core is the one that has the lock, or it waits. -/
theorem State.Holds.first {d : κ} {holder : Call} (h : s.Holds d above holder below)
    (here : s.calls c = call :: rest) :
    (c = d ∧ above = [] ∧ holder = call ∧ below = rest ++ s.lost c) ∨ call.place = .acquire := by
  have pending := pending_of_calls here
  by_cases same : c = d
  · subst same
    have list := h.here.symm.trans pending
    cases above with
    | nil => exact .inl ⟨rfl, rfl, List.cons.inj list⟩
    | cons other above =>
        obtain ⟨rfl, -⟩ := List.cons.inj list
        exact .inr (h.mine _ (by simp))
  · exact .inr (h.others c same call (by simp [pending]))

theorem Inv.stepCall (h : Inv s) (here : s.calls c = call :: rest) :
    Inv (s.stepCall c call rest) := by
  obtain free | ⟨d, above, holder, below, holds, inside⟩ := h
  · exact free.take here
  · obtain ⟨rfl, rfl, rfl, rfl⟩ | waiting := holds.first here
    · exact .stepInside holds inside
    · rw [stepCall_of_busy waiting holds.lock]
      exact .held d above holder below holds inside

/-- A new call waits, whether it is the first of its core or interrupts another one. -/
theorem begin_waiting {data : WriteBuffers} {d : κ} {other : Call}
    (waiting : ∀ other ∈ s.pending d, other.place = .acquire)
    (mem : other ∈ (s.begin c data).pending d) : other.place = .acquire := by
  rw [pending_begin] at mem
  by_cases same : d = c
  · subst same
    rw [Function.update_self] at mem
    obtain rfl | old := List.mem_cons.mp mem
    · rfl
    · exact waiting other old
  · rw [Function.update_of_ne same] at mem
    exact waiting other mem

theorem Inv.begin (h : Inv s) (c : κ) (data : WriteBuffers) : Inv (s.begin c data) := by
  obtain free | ⟨d, above, call, below, holds, inside⟩ := h
  · exact .free ⟨free.lock, fun e _ mem => begin_waiting (free.waiting e) mem, free.output⟩
  · have others : ∀ e, e ≠ d → ∀ other ∈ (s.begin c data).pending e, other.place = .acquire :=
      fun e ne _ mem => begin_waiting (holds.others e ne) mem
    by_cases same : d = c
    · subst same
      refine .held d (⟨data, .acquire⟩ :: above) call below
        ⟨holds.lock, ?_, fun other mem => ?_, others, holds.output⟩ inside
      · rw [pending_begin, Function.update_self, holds.here, List.cons_append]
      · obtain rfl | old := List.mem_cons.mp mem
        · rfl
        · exact holds.mine other old
    · refine .held d above call below ⟨holds.lock, ?_, holds.mine, others, holds.output⟩ inside
      rw [pending_begin, Function.update_of_ne same]
      exact holds.here

theorem Inv.fatal (h : Inv s) (c : κ) : Inv (s.fatal c) := by
  have same := pending_fatal (s := s) c
  obtain free | ⟨d, above, call, below, holds, inside⟩ := h
  · exact .free ⟨free.lock, same ▸ free.waiting, free.output⟩
  · exact .held d above call below ⟨holds.lock, same ▸ holds.here, holds.mine, same ▸ holds.others,
      holds.output⟩ inside

/-- The text that a core is to write from an event on. -/
def Event.begun (c : κ) : Event κ → List WriteBuffers
  | .kwritevStdout d data => if d = c then [data] else []
  | .kwritevStdoutProtected d check data => if d = c then (protectedText check data).toList else []
  | _ => []

/-- The ways a step is taken. -/
theorem step_cases {e : Event κ} (run : s.step e = some t) :
    (∃ c data, (∀ d, e.begun d = if c = d then [data] else []) ∧ t = s.begin c data) ∨
      (∀ d, e.begun d = []) ∧ ((∃ c, t = s.fatal c) ∨
        (∃ c call rest, s.calls c = call :: rest ∧ t = s.stepCall c call rest) ∨
        ∃ b, s.holding = some b ∧ t = s.transmit b) := by
  cases e with
  | kwritevStdout c data => exact .inl ⟨c, data, fun _ => rfl, (Option.some.inj run).symm⟩
  | kwritevStdoutProtected c check data =>
      obtain ⟨text, written, rfl⟩ := Option.map_eq_some_iff.mp run
      exact .inl ⟨c, text, fun d => by rw [Event.begun, written, Option.toList_some], rfl⟩
  | fatal c => exact .inr ⟨fun _ => rfl, .inl ⟨c, (Option.some.inj run).symm⟩⟩
  | step c =>
      rw [State.step] at run
      cases here : s.calls c with
      | nil => simp [here] at run
      | cons call rest =>
          rw [here] at run
          exact .inr ⟨fun _ => rfl, .inr (.inl ⟨c, call, rest, here, (Option.some.inj run).symm⟩)⟩
  | transmit =>
      obtain ⟨b, full, rfl⟩ := Option.map_eq_some_iff.mp run
      exact .inr ⟨fun _ => rfl, .inr (.inr ⟨b, full, rfl⟩)⟩

theorem Inv.step (h : Inv s) {e : Event κ} (run : s.step e = some t) : Inv t := by
  obtain ⟨c, data, -, rfl⟩ | ⟨-, ⟨c, rfl⟩ | ⟨c, call, rest, here, rfl⟩ | ⟨b, full, rfl⟩⟩ :=
    step_cases run
  · exact h.begin c data
  · exact h.fatal c
  · exact h.stepCall here
  · exact h.transmit full

theorem Inv.run {events : List (Event κ)} (run : Run s events t) (h : Inv s) : Inv t :=
  run.invariant Inv (fun _ _ _ h step => h.step step) h

/-! ### What has been called and what has returned -/

def begun (c : κ) (events : List (Event κ)) : List WriteBuffers := events.flatMap (Event.begun c)

/-- The texts of a core that have been written, and those of its calls that have not returned. -/
def State.texts (s : State κ) (c : κ) : List WriteBuffers :=
  (s.returned.filter fun r => r.core = c).map (·.data) ++ (s.pending c).map (·.data)

/-- A step returns the first call of a core, or leaves the texts and what has returned alone. -/
theorem stepCall_cases (here : s.calls c = call :: rest) :
    (∃ total, call.place = .nextBuffer [] total ∧
      (s.stepCall c call rest).returned = s.returned ++ [⟨c, call.data, total⟩] ∧
      (s.stepCall c call rest).pending = Function.update s.pending c (rest ++ s.lost c)) ∨
    (s.stepCall c call rest).returned = s.returned ∧
      ∀ d, ((s.stepCall c call rest).pending d).map (·.data) = (s.pending d).map (·.data) := by
  -- Moving to another place changes no text.
  have moved {t : State κ} {place : Place} (lost : t.lost = s.lost)
      (calls : t.calls = Function.update s.calls c (⟨call.data, place⟩ :: rest)) (d : κ) :
      (t.pending d).map (·.data) = (s.pending d).map (·.data) := by
    rw [pending_of_update s t c calls lost]
    by_cases same : d = c
    · rw [same, Function.update_self, pending_of_calls here, List.cons_append, List.map_cons,
        List.map_cons]
    · rw [Function.update_of_ne same]
  obtain ⟨data, place⟩ := call
  cases place with
  | acquire =>
      refine .inr ?_
      simp only [State.stepCall]
      split
      · exact ⟨rfl, moved rfl rfl⟩
      · exact ⟨rfl, fun _ => rfl⟩
  | nextBuffer buffers total =>
      cases buffers with
      | nil => exact .inl ⟨total, rfl, rfl, pending_of_update s _ c rfl rfl⟩
      | cons buffer buffers => exact .inr ⟨rfl, moved rfl rfl⟩
  | nextChar inner =>
      obtain ⟨chars, size, buffers, total⟩ := inner
      cases chars with
      | nil => exact .inr ⟨rfl, moved rfl rfl⟩
      | cons b chars => exact .inr ⟨rfl, moved rfl rfl⟩
  | poll b inner =>
      refine .inr ?_
      simp only [State.stepCall]
      split
      · exact ⟨rfl, moved rfl rfl⟩
      · exact ⟨rfl, fun _ => rfl⟩
  | send b inner => exact .inr ⟨rfl, moved rfl rfl⟩

theorem texts_stepCall (here : s.calls c = call :: rest) (d : κ) :
    (s.texts d).Perm ((s.stepCall c call rest).texts d) := by
  obtain ⟨total, -, returned, pending⟩ | ⟨returned, data⟩ := stepCall_cases here
  · rw [State.texts, State.texts, returned, pending]
    by_cases same : d = c
    · subst same
      simp [pending_of_calls here]
    · simp [Function.update_of_ne same, Ne.symm same]
  · rw [State.texts, State.texts, returned, data d]

theorem texts_begin (data : WriteBuffers) (d : κ) :
    (s.texts d ++ if c = d then [data] else []).Perm ((s.begin c data).texts d) := by
  rw [State.texts, State.texts, pending_begin]
  by_cases same : c = d
  · subst same
    simp only [State.begin_returned, Function.update_self, List.map_cons, if_true,
      List.append_assoc]
    exact List.Perm.append_left _ (List.perm_append_singleton _ _)
  · simp [same, Function.update_of_ne (Ne.symm same)]

theorem texts_step {events : List (Event κ)} {e : Event κ}
    (kept : (begun c events).Perm (s.texts c)) (run : s.step e = some t) :
    (begun c (events ++ [e])).Perm (t.texts c) := by
  have split : begun c (events ++ [e]) = begun c events ++ e.begun c := by simp [begun]
  rw [split]
  obtain ⟨d, data, begun, rfl⟩ | ⟨silent, cases⟩ := step_cases run
  · rw [begun]
    exact (kept.append_right _).trans (texts_begin data c)
  · rw [silent, List.append_nil]
    obtain ⟨d, rfl⟩ | ⟨d, call, rest, here, rfl⟩ | ⟨b, full, rfl⟩ := cases
    · rw [State.texts, pending_fatal]
      exact kept
    · exact kept.trans (texts_stepCall here c)
    · exact kept

/-- Every text that was to be written has been written or belongs to a pending call, once. -/
theorem texts_run {events : List (Event κ)} (run : Run .initial events s) (c : κ) :
    (begun c events).Perm (s.texts c) := by
  let Kept (events : List (Event κ)) (s : State κ) : Prop := (begun c events).Perm (s.texts c)
  have start : Kept [] .initial := List.Perm.refl _
  exact run.history Kept (fun _ _ _ _ kept step => texts_step kept step) start

/-- What a call returns is what it has written. -/
def State.Counted (s : State κ) : Prop := ∀ r ∈ s.returned, r.length = r.data.flatten.length

/-- A call at its end is the one that has the lock. -/
theorem Inv.length_of_ends (h : Inv s) (here : s.calls c = call :: rest) {total : Nat}
    (ends : call.place = .nextBuffer [] total) : total = call.data.flatten.length := by
  have entered : call.place ≠ .acquire := by simp [ends]
  obtain free | ⟨d, above, holder, below, holds, inside⟩ := h
  · exact absurd (free.waiting c call (by simp [pending_of_calls here])) entered
  · obtain ⟨rfl, rfl, rfl, rfl⟩ | waiting := holds.first here
    · simpa [ends] using inside.length
    · exact absurd waiting entered

theorem State.Counted.step (counted : s.Counted) (h : Inv s) {e : Event κ}
    (run : s.step e = some t) : t.Counted := by
  obtain ⟨c, data, -, rfl⟩ | ⟨-, ⟨c, rfl⟩ | ⟨c, call, rest, here, rfl⟩ | ⟨b, full, rfl⟩⟩ :=
    step_cases run
  · exact counted
  · exact counted
  · obtain ⟨total, ends, returned, -⟩ | ⟨returned, -⟩ := stepCall_cases here
    · intro r mem
      rw [returned, List.mem_append, List.mem_singleton] at mem
      obtain old | rfl := mem
      · exact counted r old
      · exact h.length_of_ends here ends
    · rw [State.Counted, returned]
      exact counted
  · exact counted

theorem counted_run {events : List (Event κ)} (run : Run .initial events s) :
    Inv s ∧ s.Counted :=
  run.invariant (fun s => Inv s ∧ s.Counted)
    (fun _ _ _ kept step => ⟨kept.1.step step, kept.2.step kept.1 step⟩)
    ⟨Inv.initial, fun _ mem => absurd mem List.not_mem_nil⟩

/-- **The console shows whole messages.** Whatever the kernel and the compartments write and
whichever exceptions are raised, the port has been given the texts of the calls that have returned,
one behind the other, and behind them at most a part of the text of the call that has the lock. Each
call returns the length of its text, and no text is written twice or forgotten: what is not written
belongs to a call that is pending or was cut off. -/
theorem console_shows_whole_messages {events : List (Event κ)} (run : Run .initial events s) :
    (∃ part, s.output = s.messages ++ part ∧ (s.lock = 0 ∧ part = [] ∨ s.lock = 1 ∧
      ∃ c, ∃ call ∈ s.calls c ++ s.lost c, call.place ≠ .acquire ∧ part <+: call.data.flatten)) ∧
    (∀ r ∈ s.returned, r.length = r.data.flatten.length) ∧
    ∀ c, (begun c events).Perm (s.texts c) := by
  obtain ⟨inv, counted⟩ := counted_run run
  refine ⟨?_, counted, texts_run run⟩
  obtain free | ⟨c, above, call, below, holds, inside⟩ := inv
  · exact ⟨[], by rw [free.output, List.append_nil], .inl ⟨free.lock, rfl⟩⟩
  · obtain ⟨part, written, whole⟩ := holds.output
    have listed : call ∈ s.pending c := by simp [holds.here]
    exact ⟨part, written, .inr ⟨holds.lock, c, call, listed, inside.entered, ⟨_, whole⟩⟩⟩

/-- The kernel writes on one core and a compartment on the other, which finds the lock taken. -/
def sampleOutput : List (Event (Fin 2)) :=
  [.kwritevStdout 0 [[0x61]], .kwritevStdoutProtected 1 (.ok ()) [[0x62]], .step 0, .step 0,
    .step 1, .step 0, .step 0, .step 0, .transmit, .step 0, .step 0, .step 1]

theorem console_shows_whole_messages_sample : ∃ s, Run .initial sampleOutput s ∧
    s.lock = 1 ∧ s.output = [0x61] ∧ s.messages = [0x61] ∧
    (begun 1 sampleOutput).Perm (s.texts 1) := by
  have run : ∃ s : State (Fin 2), Run .initial sampleOutput s ∧
      s.lock = 1 ∧ s.output = [0x61] ∧ s.messages = [0x61] :=
    ⟨_, .cons rfl (.cons rfl (.cons rfl (.cons rfl (.cons rfl (.cons rfl (.cons rfl (.cons rfl
      (.cons rfl (.cons rfl (.cons rfl (.cons rfl (.nil _)))))))))))), rfl, rfl, rfl⟩
  obtain ⟨s, run, lock, output, messages⟩ := run
  exact ⟨s, run, lock, output, messages, (console_shows_whole_messages run).2.2 1⟩

/-! ### Exceptions inside of the output -/

theorem State.Dead.of_stuck (inv : Inv s) (stuck : s.Stuck c) : s.Dead := by
  obtain ⟨call, behind, entered⟩ := stuck
  have listed : call ∈ s.pending c := by
    obtain running | lost := List.mem_append.mp behind
    · exact List.mem_append_left _ (List.mem_of_mem_tail running)
    · exact List.mem_append_right _ lost
  obtain free | ⟨d, above, call', below, holds, inside⟩ := inv
  · exact absurd (free.waiting c call listed) entered
  · have same : c = d := by
      by_contra other
      exact entered (holds.others c other call listed)
    subst same
    refine ⟨.held c above call' below holds inside, holds.lock, fun d first rest top => ?_⟩
    obtain ⟨rfl, rfl, rfl, rfl⟩ | waiting := holds.first top
    · -- The call that has the lock would be the first one, in front of another that has it.
      rw [top] at behind
      exact absurd (holds.mine call behind) entered
    · exact waiting

theorem State.Dead.step (dead : s.Dead) {e : Event κ} (run : s.step e = some t) :
    t.Dead ∧ t.output = s.output ∧ t.returned = s.returned := by
  have inv := dead.inv.step run
  obtain ⟨c, data, -, rfl⟩ | ⟨-, ⟨c, rfl⟩ | ⟨c, call, rest, here, rfl⟩ | ⟨b, full, rfl⟩⟩ :=
    step_cases run
  · refine ⟨⟨inv, dead.lock, fun d first rest top => ?_⟩, rfl, rfl⟩
    by_cases same : d = c
    · subst same
      rw [State.begin_calls, Function.update_self] at top
      obtain ⟨rfl, -⟩ := List.cons.inj top
      rfl
    · rw [State.begin_calls, Function.update_of_ne same] at top
      exact dead.waiting d first rest top
  · refine ⟨⟨inv, dead.lock, fun d first rest top => ?_⟩, rfl, rfl⟩
    by_cases same : d = c
    · subst same
      rw [State.fatal_calls, Function.update_self] at top
      cases top
    · rw [State.fatal_calls, Function.update_of_ne same] at top
      exact dead.waiting d first rest top
  · rw [stepCall_of_busy (dead.waiting c call rest here) dead.lock]
    exact ⟨dead, rfl, rfl⟩
  · exact ⟨⟨inv, dead.lock, dead.waiting⟩, output_transmit full, rfl⟩

theorem State.Dead.run (dead : s.Dead) {events : List (Event κ)} (run : Run s events t) :
    t.Dead ∧ t.output = s.output ∧ t.returned = s.returned :=
  run.invariant (fun t => t.Dead ∧ t.output = s.output ∧ t.returned = s.returned)
    (fun u _ v kept step => by
      obtain ⟨dead, output, returned⟩ := kept.1.step step
      exact ⟨dead, output.trans kept.2.1, returned.trans kept.2.2⟩) ⟨dead, rfl, rfl⟩

/-- A step can cut off more calls, and does nothing with those that are. -/
theorem lost_step {e : Event κ} (run : s.step e = some t) (c : κ) : s.lost c <:+ t.lost c := by
  obtain ⟨d, data, -, rfl⟩ | ⟨-, ⟨d, rfl⟩ | ⟨d, call, rest, here, rfl⟩ | ⟨b, full, rfl⟩⟩ :=
    step_cases run
  · exact List.suffix_rfl
  · rw [State.fatal_lost]
    by_cases same : c = d
    · subst same
      rw [Function.update_self]
      exact List.suffix_append _ _
    · rw [Function.update_of_ne same]
  · rw [stepCall_lost]
  · exact List.suffix_rfl

theorem lost_run {events : List (Event κ)} (run : Run s events t) (c : κ) :
    s.lost c <:+ t.lost c :=
  run.invariant (fun t => s.lost c <:+ t.lost c)
    (fun _ _ _ kept step => kept.trans (lost_step step c)) List.suffix_rfl

/-! ### The end of the output -/

/-- The core can come to have these calls, with the lock in this state and nothing cut off. -/
def State.Reaches (s : State κ) (c : κ) (calls : List Call) (lock : Nat) : Prop :=
  ∃ events t, Run s events t ∧ t.calls = Function.update s.calls c calls ∧ t.lost = s.lost ∧
    t.lock = lock

theorem State.Reaches.trans {first second : List Call} {lock lock' : Nat}
    (h : s.Reaches c first lock)
    (rest : ∀ t : State κ, t.calls c = first → t.lock = lock → t.Reaches c second lock') :
    s.Reaches c second lock' := by
  obtain ⟨events, t, run, calls, lost, held⟩ := h
  obtain ⟨events', u, run', calls', lost', held'⟩ :=
    rest t (by rw [calls, Function.update_self]) held
  refine ⟨events ++ events', u, run.append run', ?_, lost'.trans lost, held'⟩
  rw [calls', calls, Function.update_idem]

theorem State.Reaches.step (here : s.calls c = call :: rest) {calls : List Call} {lock : Nat}
    (after : (s.stepCall c call rest).calls = Function.update s.calls c calls)
    (held : (s.stepCall c call rest).lock = lock) : s.Reaches c calls lock := by
  refine ⟨[.step c], s.stepCall c call rest, Transition.Run.single.mpr ?_, after, stepCall_lost,
    held⟩
  simp only [State.step, here]

theorem State.Reaches.move (here : s.calls c = call :: rest) {place : Place}
    (step : s.stepCall c call rest = s.move c call rest place) :
    s.Reaches c (⟨call.data, place⟩ :: rest) s.lock :=
  .step here (by rw [step]; rfl) (by rw [step]; rfl)

theorem reaches_send_of_empty {data : WriteBuffers} {b : Byte} {inner : Inner}
    (here : s.calls c = ⟨data, .poll b inner⟩ :: rest) (empty : s.holding = none) :
    s.Reaches c (⟨data, .nextChar inner⟩ :: rest) s.lock := by
  have polled : s.stepCall c ⟨data, .poll b inner⟩ rest =
      s.move c ⟨data, .poll b inner⟩ rest (.send b inner) := if_pos empty
  exact (State.Reaches.move here polled).trans fun t here lock => .step here rfl lock

/-- The port sends the byte it holds, and the next one is stored. -/
theorem reaches_send {data : WriteBuffers} {b : Byte} {inner : Inner}
    (here : s.calls c = ⟨data, .poll b inner⟩ :: rest) :
    s.Reaches c (⟨data, .nextChar inner⟩ :: rest) s.lock := by
  cases held : s.holding with
  | none => exact reaches_send_of_empty here held
  | some old =>
      have sent : s.step .transmit = some (s.transmit old) := by simp [State.step, held]
      obtain ⟨events, t, run, calls, lost, lock⟩ :=
        reaches_send_of_empty (s := s.transmit old) here rfl
      exact ⟨.transmit :: events, t, .cons sent run, calls, lost, lock⟩

theorem reaches_chars {data : WriteBuffers} {chars : List Byte} {size total : Nat}
    {buffers : WriteBuffers}
    (here : s.calls c = ⟨data, .nextChar ⟨chars, size, buffers, total⟩⟩ :: rest) :
    s.Reaches c (⟨data, .nextBuffer buffers (total + size)⟩ :: rest) s.lock := by
  induction chars generalizing s with
  | nil => exact .move here rfl
  | cons b chars ih =>
      refine (State.Reaches.move here rfl).trans fun t here lock => ?_
      refine lock ▸ (reaches_send here).trans fun u here lock => ?_
      exact lock ▸ ih here

theorem reaches_end {data buffers : WriteBuffers} {total : Nat}
    (here : s.calls c = ⟨data, .nextBuffer buffers total⟩ :: rest) : s.Reaches c rest 0 := by
  induction buffers generalizing s total with
  | nil => exact .step here rfl rfl
  | cons buffer buffers ih =>
      refine (State.Reaches.move here rfl).trans fun t here lock => ?_
      exact (reaches_chars here).trans fun u here lock => ih here

/-- Whatever has the lock and is the first call of its core gets to its end. -/
theorem reaches_end_of_entered (here : s.calls c = call :: rest)
    (entered : call.place ≠ .acquire) : s.Reaches c rest 0 := by
  obtain ⟨data, place⟩ := call
  cases place with
  | acquire => exact absurd rfl entered
  | nextBuffer buffers total => exact reaches_end here
  | nextChar inner => exact (reaches_chars here).trans fun _ here _ => reaches_end here
  | poll b inner =>
      refine (reaches_send here).trans fun t here _ => ?_
      exact (reaches_chars here).trans fun _ here _ => reaches_end here
  | send b inner =>
      have stored : s.Reaches c (⟨data, .nextChar inner⟩ :: rest) s.lock := .step here rfl rfl
      refine stored.trans fun t here _ => ?_
      exact (reaches_chars here).trans fun _ here _ => reaches_end here

theorem reaches_end_of_waiting (here : s.calls c = call :: rest)
    (waiting : call.place = .acquire) (lock : s.lock = 0) : s.Reaches c rest 0 := by
  have taken : s.Reaches c (⟨call.data, .nextBuffer call.data 0⟩ :: rest) 1 := by
    refine .step here ?_ ?_
    · simp only [State.stepCall, waiting, lock, if_true, State.move]
    · simp only [State.stepCall, waiting, lock, if_true]
  exact taken.trans fun _ here _ => reaches_end here

theorem sum_length_update [Fintype κ] {calls : κ → List Call} (here : calls c = call :: rest) :
    ∑ d, (calls d).length = ∑ d, (Function.update calls c rest d).length + 1 := by
  have before := Fintype.sum_eq_add_sum_compl c fun d => (calls d).length
  have after := Fintype.sum_eq_add_sum_compl c fun d => (Function.update calls c rest d).length
  have same : ∑ d ∈ {c}ᶜ, (Function.update calls c rest d).length =
      ∑ d ∈ {c}ᶜ, (calls d).length := by
    refine Finset.sum_congr rfl fun d other => ?_
    rw [Function.update_of_ne (by simpa using other)]
  rw [Function.update_self, same] at after
  rw [here, List.length_cons] at before
  omega

/-- All calls that were not cut off can return and leave the lock free. -/
def State.Drains (s : State κ) : Prop :=
  ∃ later t, Run s later t ∧ t.lost = s.lost ∧ t.lock = 0 ∧ ∀ c, t.calls c = []

/-- With the lock free, one call after the other gets to its end. -/
theorem drains_of_free [Fintype κ] (lock : s.lock = 0)
    (waiting : ∀ c, ∀ call ∈ s.calls c, call.place = .acquire) : s.Drains := by
  induction count : ∑ c, (s.calls c).length generalizing s with
  | zero =>
      refine ⟨[], s, .nil s, rfl, lock, fun c => List.eq_nil_of_length_eq_zero ?_⟩
      exact Finset.sum_eq_zero_iff.mp count c (Finset.mem_univ c)
  | succ n ih =>
      obtain ⟨c, -, pending⟩ : ∃ c ∈ Finset.univ, (s.calls c).length ≠ 0 := by
        refine Finset.exists_ne_zero_of_sum_ne_zero ?_
        omega
      obtain ⟨call, rest, here⟩ := List.exists_cons_of_ne_nil
        (List.ne_nil_of_length_pos (Nat.pos_of_ne_zero pending))
      obtain ⟨events, t, run, calls, lost, free⟩ :=
        reaches_end_of_waiting here (waiting c call (by simp [here])) lock
      have fewer : ∑ d, (t.calls d).length = n := by
        rw [sum_length_update here, ← calls] at count
        omega
      have others : ∀ d, ∀ other ∈ t.calls d, other.place = .acquire := by
        have mine := waiting c
        rw [here] at mine
        rw [calls]
        exact waiting_update (fun other mem => mine other (List.mem_cons_of_mem call mem))
          fun d _ => waiting d
      obtain ⟨events', u, run', lost', done⟩ := ih free others fewer
      exact ⟨events ++ events', u, run.append run', lost'.trans lost, done⟩

theorem drains_of_not_stuck [Fintype κ] (inv : Inv s) (clear : ∀ c, ¬ s.Stuck c) : s.Drains := by
  obtain free | ⟨c, above, call, below, holds, inside⟩ := inv
  · refine drains_of_free free.lock fun c call mem => ?_
    exact free.waiting c call (List.mem_append_left _ mem)
  · cases here : s.calls c with
    | nil =>
        have cut : s.lost c = above ++ call :: below := by
          simpa [State.pending, here] using holds.here
        exact absurd ⟨call, by simp [here, cut], inside.entered⟩ (clear c)
    | cons first rest =>
        have pending := (pending_of_calls here).symm.trans holds.here
        cases above with
        | cons other above =>
            obtain ⟨rfl, behind⟩ := List.cons.inj pending
            exact absurd ⟨call, by simp [here, behind], inside.entered⟩ (clear c)
        | nil =>
            obtain ⟨rfl, rfl⟩ := List.cons.inj pending
            obtain ⟨events, t, run, calls, lost, lock⟩ := reaches_end_of_entered here inside.entered
            have waiting : ∀ d, ∀ other ∈ t.calls d, other.place = .acquire := by
              rw [calls]
              have mine : ∀ other ∈ rest ++ s.lost c, other.place = .acquire := holds.mine
              exact waiting_update (fun other mem => mine other (List.mem_append_left _ mem))
                fun d ne other mem => holds.others d ne other (List.mem_append_left _ mem)
            obtain ⟨events', u, run', lost', done⟩ := drains_of_free lock waiting
            exact ⟨events ++ events', u, run.append run', lost'.trans lost, done⟩

/-- **An exception inside of the output silences the console, and nothing else does.** As long as
no call is interrupted while it has the lock, all calls can return except those that a fatal
exception has cut off, which stay where they are for ever. Once one is, no call gets anything out or
returns, whatever the cores do. -/
theorem console_drains_iff [Fintype κ] {events : List (Event κ)} (run : Run .initial events s) :
    (s.Drains ↔ ∀ c, ¬ s.Stuck c) ∧
      (∀ c, s.Stuck c → ∀ later t, Run s later t →
        t.output = s.output ∧ t.returned = s.returned) ∧
      ∀ c later t, Run s later t → s.lost c <:+ t.lost c := by
  have inv := Inv.initial.run run
  refine ⟨⟨?_, drains_of_not_stuck inv⟩, fun c stuck later t rest => ?_,
    fun c later t rest => lost_run rest c⟩
  · rintro ⟨later, t, rest, -, free, -⟩ c stuck
    have held := ((State.Dead.of_stuck inv stuck).run rest).1.lock
    exact absurd (free.symm.trans held) Nat.zero_ne_one
  · exact ((State.Dead.of_stuck inv stuck).run rest).2

/-- An exception is raised by the core that has just taken the lock; its report is not seen. -/
theorem console_drains_iff_sample : ∃ s : State (Fin 2),
    Run .initial [.kwritevStdout 0 (outputLogEntry [0x61]), .step 0, .fatal 0,
      .kwritevStdout 0 (outputLogEntry [0x62])] s ∧
      s.Stuck 0 ∧ ∀ later t, Run s later t → t.output = [] := by
  have run : ∃ s : State (Fin 2),
      Run .initial [.kwritevStdout 0 (outputLogEntry [0x61]), .step 0, .fatal 0,
        .kwritevStdout 0 (outputLogEntry [0x62])] s ∧ s.Stuck 0 ∧ s.output = [] :=
    ⟨_, .cons rfl (.cons rfl (.cons rfl (.cons rfl (.nil _)))),
      ⟨_, List.mem_singleton.mpr rfl, by simp⟩, rfl⟩
  obtain ⟨s, run, stuck, silent⟩ := run
  exact ⟨s, run, stuck, fun later t rest =>
    ((console_drains_iff run).2.1 0 stuck later t rest).1.trans silent⟩

end Invariant

end Monza.Console
