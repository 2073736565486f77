import Mathlib.Data.List.Range
import Mathlib.Logic.Function.Basic
import Mathlib.Tactic.Simps.Basic
import Monza.Lib.Transition

/-!
# Dynamic slots of thread-local storage

The kernel and each compartment have a block of thread-local storage with an array of 512 slots.
Keys below 256 are given out by the kernel, from a global counter; the others by a compartment,
from a counter in its own block. A compartment may use the keys of the kernel as well, in its own
array, so the keys that are valid in it have a gap in the middle.

A run is a sequence of calls, from any contexts, with what they returned. What the calls have to
return is read off the calls before: the keys that were given out and the value that was set last.
Nothing is assumed about the keys that are passed in.
-/

namespace Monza.TlsSlots

open Transition

def globalDynamicTlsSize : Nat := 256

def compartmentDynamicTlsSize : Nat := 256

def dynamicTlsSize : Nat := globalDynamicTlsSize + compartmentDynamicTlsSize

/-- Where a call comes from, which `is_compartment` tells. -/
inductive Context (κ : Type*) where
  | kernel
  | compartment (c : κ)
  deriving DecidableEq, Repr

/-- The thread-local variables of a context. Pointers are addresses and null is zero. -/
structure Block where
  dynamicTls : Nat → Nat
  compartmentDynamicTlsSlot : Nat

structure State (κ : Type*) where
  currentDynamicTlsSlot : Nat
  block : Context κ → Block

variable {κ : Type*} [DecidableEq κ]

namespace State

def initial : State κ := ⟨0, fun _ => ⟨fun _ => 0, globalDynamicTlsSize⟩⟩

variable (s : State κ)

@[simps] def setBlock (x : Context κ) (block : Block) : State κ :=
  { s with block := Function.update s.block x block }

/-- The key, or `none` for the result `false`. Counters are 16 bits wide. -/
def allocateTlsSlot (x : Context κ) : Option Nat × State κ :=
  match x with
  | .compartment c =>
    let block := s.block (.compartment c)
    let slot := block.compartmentDynamicTlsSlot
    if slot = dynamicTlsSize - 1 then (none, s)
    else
      (some slot, s.setBlock (.compartment c)
        { block with compartmentDynamicTlsSlot := (slot + 1) % 65536 })
  | .kernel =>
    let slot := s.currentDynamicTlsSlot
    if slot = globalDynamicTlsSize - 1 then (none, s)
    else (some slot, { s with currentDynamicTlsSlot := (slot + 1) % 65536 })

def isSlotValid (x : Context κ) (key : Nat) : Bool :=
  match x with
  | .compartment c =>
    if key ≥ (s.block (.compartment c)).compartmentDynamicTlsSlot then false
    else if key ≥ s.currentDynamicTlsSlot ∧ key < globalDynamicTlsSize then false
    else true
  | .kernel => if key ≥ s.currentDynamicTlsSlot then false else true

/-- `none` is an index outside the array. -/
def getTlsSlot (x : Context κ) (key : Nat) : Option Nat :=
  if s.isSlotValid x key then
    if key < dynamicTlsSize then some ((s.block x).dynamicTls key) else none
  else some 0

/-- `none` is an index outside the array. -/
def setTlsSlot (x : Context κ) (key data : Nat) : Option (Bool × State κ) :=
  if s.isSlotValid x key then
    if key < dynamicTlsSize then
      some (true, s.setBlock x
        { s.block x with dynamicTls := Function.update (s.block x).dynamicTls key data })
    else none
  else some (false, s)

variable {s}

/-- What is to be shown for every block after one has changed. -/
theorem forall_setBlock {x : Context κ} {block : Block} (P : Context κ → Block → Prop) :
    (∀ y, P y ((s.setBlock x block).block y)) ↔ P x block ∧ ∀ y, y ≠ x → P y (s.block y) :=
  Function.forall_update_iff s.block P

end State

/-- A call, with what it returned. -/
inductive Call (κ : Type*) where
  | allocate (x : Context κ) (key : Option Nat)
  | get (x : Context κ) (key value : Nat)
  | set (x : Context κ) (key data : Nat) (ok : Bool)
  deriving DecidableEq, Repr

inductive Step : State κ → Call κ → State κ → Prop
  | allocate {s t : State κ} {x : Context κ} {key : Option Nat} :
      s.allocateTlsSlot x = (key, t) → Step s (.allocate x key) t
  | get {s : State κ} {x : Context κ} {key value : Nat} :
      s.getTlsSlot x key = some value → Step s (.get x key value) s
  | set {s t : State κ} {x : Context κ} {key data : Nat} {ok : Bool} :
      s.setTlsSlot x key data = some (ok, t) → Step s (.set x key data ok) t

/-! ### What the calls have to return -/

/-- The key that a call has given to a context. -/
def Call.given (x : Context κ) : Call κ → Option Nat
  | allocate y key => if y = x then key else none
  | get .. => none
  | set .. => none

/-- The value of a key in a context after a call. -/
def Call.stored (x : Context κ) (key value : Nat) : Call κ → Nat
  | set y k data true => if y = x ∧ k = key then data else value
  | set _ _ _ false => value
  | allocate .. => value
  | get .. => value

/-- The keys that a context has been given. -/
def allocated (calls : List (Call κ)) (x : Context κ) : List Nat := calls.filterMap (Call.given x)

/-- The keys that a context may use. -/
def Usable (calls : List (Call κ)) (x : Context κ) (key : Nat) : Prop :=
  key ∈ allocated calls x ∨ key ∈ allocated calls .kernel

instance (calls : List (Call κ)) (x : Context κ) (key : Nat) : Decidable (Usable calls x key) :=
  inferInstanceAs (Decidable (_ ∨ _))

/-- The value that a context has set last for a key, null if there is none. -/
def lastSet (calls : List (Call κ)) (x : Context κ) (key : Nat) : Nat :=
  calls.foldl (fun value call => call.stored x key value) 0

section History

variable {calls : List (Call κ)} {call : Call κ} {x : Context κ} {key : Nat}

theorem allocated_append :
    allocated (calls ++ [call]) x = allocated calls x ++ (call.given x).toList := by
  rw [allocated, List.filterMap_append]
  cases given : call.given x with
  | none => simp [allocated, given]
  | some key => simp [allocated, given]

theorem lastSet_append :
    lastSet (calls ++ [call]) x key = call.stored x key (lastSet calls x key) := by
  rw [lastSet, List.foldl_append]
  rfl

end History

/-! ### The counters and the arrays -/

/-- The keys given out are those below the counters, and the arrays hold the values set last. -/
structure Inv (calls : List (Call κ)) (s : State κ) : Prop where
  kernel : allocated calls .kernel = List.range s.currentDynamicTlsSlot
  kernel_lt : s.currentDynamicTlsSlot < globalDynamicTlsSize
  compartment : ∀ c, allocated calls (.compartment c) = List.range' globalDynamicTlsSize
    ((s.block (.compartment c)).compartmentDynamicTlsSlot - globalDynamicTlsSize)
  le_slot : ∀ x, globalDynamicTlsSize ≤ (s.block x).compartmentDynamicTlsSlot
  slot_lt : ∀ x, (s.block x).compartmentDynamicTlsSlot < dynamicTlsSize
  values : ∀ x key, (s.block x).dynamicTls key = lastSet calls x key

namespace Inv

variable {calls : List (Call κ)} {s t : State κ} {x : Context κ}

theorem initial : Inv ([] : List (Call κ)) State.initial where
  kernel := rfl
  kernel_lt := show 0 < globalDynamicTlsSize by decide
  compartment _ := by
    rw [State.initial, Nat.sub_self]
    rfl
  le_slot _ := Nat.le_refl _
  slot_lt _ := show globalDynamicTlsSize < dynamicTlsSize by decide
  values _ _ := rfl

/-- The test for valid keys finds exactly the usable ones. -/
theorem isSlotValid_iff (h : Inv calls s) {key : Nat} :
    s.isSlotValid x key = true ↔ Usable calls x key := by
  have kernel : key ∈ allocated calls .kernel ↔ key < s.currentDynamicTlsSlot := by
    rw [h.kernel, List.mem_range]
  cases x with
  | kernel =>
    rw [Usable, or_self, kernel, State.isSlotValid]
    split <;> simp_all
  | compartment c =>
    have own := h.compartment c
    have low := h.le_slot (.compartment c)
    have few := h.kernel_lt
    rw [Usable, kernel, own, List.mem_range'_1, State.isSlotValid]
    split
    next behind =>
      simp only [Bool.false_eq_true, false_iff]
      omega
    next =>
      split
      next gap =>
        simp only [Bool.false_eq_true, false_iff]
        omega
      next =>
        simp only [true_iff]
        omega

/-- Every usable key is inside the array. -/
theorem lt_of_usable (h : Inv calls s) {key : Nat} (usable : Usable calls x key) :
    key < dynamicTlsSize := by
  have few : globalDynamicTlsSize ≤ dynamicTlsSize := by decide
  have kernel := h.kernel_lt
  rw [Usable, h.kernel, List.mem_range] at usable
  rcases usable with own | below
  · cases x with
    | kernel =>
      rw [h.kernel, List.mem_range] at own
      omega
    | compartment c =>
      have slot := h.slot_lt (.compartment c)
      have low := h.le_slot (.compartment c)
      rw [h.compartment c, List.mem_range'_1] at own
      omega
  · omega

theorem getTlsSlot_of_usable (h : Inv calls s) {key : Nat} (usable : Usable calls x key) :
    s.getTlsSlot x key = some (lastSet calls x key) := by
  rw [State.getTlsSlot, if_pos (h.isSlotValid_iff.mpr usable), if_pos (h.lt_of_usable usable),
    h.values]

theorem getTlsSlot_of_not_usable (h : Inv calls s) {key : Nat} (unusable : ¬ Usable calls x key) :
    s.getTlsSlot x key = some 0 := by
  rw [State.getTlsSlot, if_neg (mt h.isSlotValid_iff.mp unusable)]

/-- The context after a key has been set. -/
theorem setTlsSlot_of_usable (h : Inv calls s) {key : Nat} (data : Nat)
    (usable : Usable calls x key) :
    s.setTlsSlot x key data = some (true, s.setBlock x
      { s.block x with dynamicTls := Function.update (s.block x).dynamicTls key data }) := by
  rw [State.setTlsSlot, if_pos (h.isSlotValid_iff.mpr usable), if_pos (h.lt_of_usable usable)]

theorem setTlsSlot_of_not_usable (h : Inv calls s) {key data : Nat}
    (unusable : ¬ Usable calls x key) : s.setTlsSlot x key data = some (false, s) := by
  rw [State.setTlsSlot, if_neg (mt h.isSlotValid_iff.mp unusable)]

/-- A call that neither gives out a key nor stores a value. -/
theorem append (h : Inv calls s) {call : Call κ} (given : ∀ x, call.given x = none)
    (stored : ∀ x key value, call.stored x key value = value) : Inv (calls ++ [call]) s := by
  have keys : ∀ x, allocated (calls ++ [call]) x = allocated calls x := by
    intro x
    rw [allocated_append, given]
    exact List.append_nil _
  refine ⟨(keys _).trans h.kernel, h.kernel_lt, fun c => (keys _).trans (h.compartment c),
    h.le_slot, h.slot_lt, ?_⟩
  intro x key
  rw [lastSet_append, stored]
  exact h.values x key

/-- A counter that is not at its last value can be incremented. -/
theorem increment {slot size : Nat} (lt : slot < size) (room : slot ≠ size - 1)
    (word : size < 65536) : (slot + 1) % 65536 = slot + 1 ∧ slot + 1 < size := by
  have next : slot + 1 < size := by omega
  exact ⟨Nat.mod_eq_of_lt (Nat.lt_trans next word), next⟩

theorem allocate_kernel (h : Inv calls s) {key : Option Nat}
    (taken : s.allocateTlsSlot .kernel = (key, t)) : Inv (calls ++ [.allocate .kernel key]) t := by
  rw [State.allocateTlsSlot] at taken
  split at taken
  next =>
    cases taken
    exact h.append (fun x => by simp [Call.given]) (fun _ _ _ => rfl)
  next room =>
    cases taken
    obtain ⟨next, lt⟩ := increment h.kernel_lt room (by decide)
    refine ⟨?_, ?_, ?_, h.le_slot, h.slot_lt, ?_⟩
    · rw [allocated_append, h.kernel, next, List.range_succ]
      rfl
    · rw [next]
      exact lt
    · intro c
      rw [allocated_append, h.compartment]
      exact List.append_nil _
    · intro x k
      rw [lastSet_append]
      exact h.values x k

/-- A call that changes the block of one context. What it gives to the context and stores for it is
what the new block holds; it does neither for another context. -/
theorem setBlock (h : Inv calls s) {call : Call κ} {block : Block}
    (kernel : call.given .kernel = none) (given : ∀ y, y ≠ x → call.given y = none)
    (keys : ∀ c, x = .compartment c → allocated calls x ++ (call.given x).toList =
      List.range' globalDynamicTlsSize (block.compartmentDynamicTlsSlot - globalDynamicTlsSize))
    (low : globalDynamicTlsSize ≤ block.compartmentDynamicTlsSlot)
    (lt : block.compartmentDynamicTlsSlot < dynamicTlsSize)
    (stored : ∀ k, block.dynamicTls k = call.stored x k (lastSet calls x k))
    (kept : ∀ y k value, y ≠ x → call.stored y k value = value) :
    Inv (calls ++ [call]) (s.setBlock x block) := by
  refine ⟨?_, h.kernel_lt, ?_, ?_, ?_, ?_⟩
  · rw [allocated_append, kernel, h.kernel]
    exact List.append_nil _
  · intro c
    rw [allocated_append, State.setBlock_block]
    by_cases same : Context.compartment c = x
    · subst same
      rw [Function.update_self]
      exact keys c rfl
    · rw [Function.update_of_ne same, given _ same, h.compartment]
      exact List.append_nil _
  · exact (State.forall_setBlock
      (fun _ block => globalDynamicTlsSize ≤ block.compartmentDynamicTlsSlot)).mpr
      ⟨low, fun y _ => h.le_slot y⟩
  · exact (State.forall_setBlock
      (fun _ block => block.compartmentDynamicTlsSlot < dynamicTlsSize)).mpr
      ⟨lt, fun y _ => h.slot_lt y⟩
  · intro y k
    rw [lastSet_append]
    refine (State.forall_setBlock (fun y block =>
      block.dynamicTls k = call.stored y k (lastSet calls y k))).mpr ⟨stored k, ?_⟩ y
    intro z other
    rw [kept z k _ other]
    exact h.values z k

theorem allocate_compartment (h : Inv calls s) {c : κ} {key : Option Nat}
    (taken : s.allocateTlsSlot (.compartment c) = (key, t)) :
    Inv (calls ++ [.allocate (.compartment c) key]) t := by
  rw [State.allocateTlsSlot] at taken
  split at taken
  next =>
    cases taken
    exact h.append (fun x => by simp [Call.given]) (fun _ _ _ => rfl)
  next room =>
    cases taken
    have low := h.le_slot (.compartment c)
    obtain ⟨next, lt⟩ := increment (h.slot_lt (.compartment c)) room (by decide)
    rw [next]
    refine h.setBlock rfl (fun y other => if_neg other.symm) ?_ (Nat.le_succ_of_le low) lt
      (h.values _) (fun _ _ _ _ => rfl)
    -- The new key follows the ones that the compartment has.
    intro d _
    rw [h.compartment, Nat.sub_add_comm low, List.range'_concat, Nat.one_mul,
      Nat.add_sub_of_le low]
    simp [Call.given]

/-- The array of one context changes at one key. -/
theorem set (h : Inv calls s) {key data : Nat} {ok : Bool}
    (taken : s.setTlsSlot x key data = some (ok, t)) : Inv (calls ++ [.set x key data ok]) t := by
  by_cases usable : Usable calls x key
  · rw [h.setTlsSlot_of_usable data usable] at taken
    cases taken
    refine h.setBlock rfl (fun _ _ => rfl) ?_ (h.le_slot x) (h.slot_lt x) ?_ ?_
    · rintro c rfl
      rw [h.compartment]
      exact List.append_nil _
    · intro k
      by_cases same : k = key
      · subst same
        simp [Call.stored]
      · simp [Call.stored, Ne.symm same, same, h.values]
    · intro y k value other
      simp [Call.stored, other.symm]
  · rw [h.setTlsSlot_of_not_usable usable] at taken
    cases taken
    exact h.append (fun _ => rfl) (fun _ _ _ => rfl)

theorem step {call : Call κ} (h : Inv calls s) (taken : Step s call t) :
    Inv (calls ++ [call]) t := by
  cases taken with
  | @allocate _ x key given =>
    cases x with
    | kernel => exact h.allocate_kernel given
    | compartment c => exact h.allocate_compartment given
  | get => exact h.append (fun _ => rfl) (fun _ _ _ => rfl)
  | set stored => exact h.set stored

theorem run (run : Run Step State.initial calls s) : Inv calls s :=
  run.history Inv (fun _ _ _ _ h taken => h.step taken) initial

/-- After a key has been set it has the new value, and every other key the value it had. -/
theorem getTlsSlot_set (h : Inv calls s) {key data : Nat} (usable : Usable calls x key)
    (taken : s.setTlsSlot x key data = some (true, t)) :
    t.getTlsSlot x key = some data ∧
      ∀ y k, (y, k) ≠ (x, key) → t.getTlsSlot y k = s.getTlsSlot y k := by
  have after := h.set taken
  have same : ∀ y k, Usable (calls ++ [.set x key data true]) y k ↔ Usable calls y k := by
    intro y k
    rw [Usable, Usable, allocated_append, allocated_append]
    simp [Call.given]
  constructor
  · rw [after.getTlsSlot_of_usable ((same x key).mpr usable), lastSet_append]
    simp [Call.stored]
  · intro y k other
    have kept : lastSet (calls ++ [.set x key data true]) y k = lastSet calls y k := by
      rw [lastSet_append]
      refine if_neg ?_
      rintro ⟨rfl, rfl⟩
      exact other rfl
    by_cases valid : Usable calls y k
    · rw [after.getTlsSlot_of_usable ((same y k).mpr valid), h.getTlsSlot_of_usable valid, kept]
    · rw [after.getTlsSlot_of_not_usable (mt (same y k).mp valid), h.getTlsSlot_of_not_usable valid]

theorem nodup (h : Inv calls s) (x : Context κ) : (allocated calls x).Nodup := by
  cases x with
  | kernel =>
    rw [h.kernel]
    exact List.nodup_range
  | compartment c =>
    rw [h.compartment]
    exact List.nodup_range'

end Inv

/-- The dynamic slots are a keyed store for every sequence of calls. Keys are given out once in a
context, in the region of the context; no call leaves the array; a usable key has the value that
was set last in the context, and setting it changes nothing else; the other keys hold nothing and
cannot be set. -/
theorem tls_slots_are_keyed_store {calls : List (Call κ)} {s : State κ}
    (run : Run Step State.initial calls s) :
    (∀ x, (allocated calls x).Nodup) ∧
    (∀ key ∈ allocated calls .kernel, key < 256) ∧
    (∀ c, ∀ key ∈ allocated calls (.compartment c), 256 ≤ key ∧ key < 512) ∧
    (∀ x key, Usable calls x key → s.getTlsSlot x key = some (lastSet calls x key)) ∧
    (∀ x key data, Usable calls x key → ∃ t, s.setTlsSlot x key data = some (true, t) ∧
      t.getTlsSlot x key = some data ∧
      ∀ y k, (y, k) ≠ (x, key) → t.getTlsSlot y k = s.getTlsSlot y k) ∧
    (∀ x key data, ¬ Usable calls x key →
      s.getTlsSlot x key = some 0 ∧ s.setTlsSlot x key data = some (false, s)) := by
  have inv := Inv.run run
  refine ⟨inv.nodup, ?_, ?_, fun _ _ => inv.getTlsSlot_of_usable, ?_, ?_⟩
  · intro key mem
    rw [inv.kernel, List.mem_range] at mem
    exact Nat.lt_trans mem inv.kernel_lt
  · intro c key mem
    have slot := inv.slot_lt (.compartment c)
    have low := inv.le_slot (.compartment c)
    rw [inv.compartment, List.mem_range'_1] at mem
    rw [globalDynamicTlsSize] at mem low
    rw [dynamicTlsSize, globalDynamicTlsSize, compartmentDynamicTlsSize] at slot
    omega
  · intro x key data usable
    have taken := inv.setTlsSlot_of_usable data usable
    exact ⟨_, taken, inv.getTlsSlot_set usable taken⟩
  · intro x key data unusable
    exact ⟨inv.getTlsSlot_of_not_usable unusable, inv.setTlsSlot_of_not_usable unusable⟩

/-- The kernel and a compartment allocate a key each; the compartment stores a value under both,
and the kernel's array stays empty. -/
def sampleCalls : List (Call Unit) :=
  [.allocate .kernel (some 0), .allocate (.compartment ()) (some 256),
    .set (.compartment ()) 256 7 true, .set (.compartment ()) 0 9 true, .get .kernel 0 0,
    .set .kernel 256 5 false]

theorem tls_slots_sample : ∃ s : State Unit, Run Step State.initial sampleCalls s ∧
    s.getTlsSlot (.compartment ()) 0 = some 9 ∧ s.getTlsSlot .kernel 0 = some 0 ∧
    s.getTlsSlot (.compartment ()) 1 = some 0 := by
  have run : ∃ s, Run Step State.initial sampleCalls s :=
    ⟨_, .cons (.allocate rfl) (.cons (.allocate rfl) (.cons (.set rfl) (.cons (.set rfl)
      (.cons (.get rfl) (.cons (.set rfl) (.nil _))))))⟩
  obtain ⟨s, run⟩ := run
  obtain ⟨-, -, -, usable, -, unusable⟩ := tls_slots_are_keyed_store run
  refine ⟨s, run, ?_, ?_, ?_⟩
  · exact usable (.compartment ()) 0 (by decide)
  · exact usable .kernel 0 (by decide)
  · exact (unusable (.compartment ()) 1 0 (by decide)).1

end Monza.TlsSlots
