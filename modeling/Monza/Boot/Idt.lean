import Monza.Gdt
import Monza.Lib.ByteTable
import Monza.Lib.Outcome
import Monza.Machine

/-!
# The table of interrupts

`setup_idt_generic` looks for the first code segment of the table of segments, stores 32 gates for
exceptions, opens that of the breakpoint to compartments, and goes down from the last gate with a
handler that does nothing. The loop tests after its body, and goes on at the first gate behind the
exceptions as well: it takes the gate of exception 31 with it.

The operands are addressed with 32-bit registers. The gates are read back as the processor reads
them.
-/

namespace Monza

/-- `NullSegment`. -/
def nullSegment : UserGDTEntry := ⟨0, 0, ⟨0, 0, 0, 0, 0, 0, 0, 0, 0⟩, 0⟩

def codeSegment64 (ring : BitVec 2) : UserGDTEntry where
  limitLow := 0xFFFF
  baseLow := 0
  attributes :=
    { segmentType := 0b1011
      userSegment := 1
      descriptorPrivilegeLevel := ring
      present := 1
      limitHigh := 0xF
      available := 0
      longMode := 1
      protectedMode := 0
      granularity := 1 }
  baseHigh := 0

/-- The bit-fields in the order of their declaration. -/
def SegmentAttributes.encode (a : SegmentAttributes) : Nat :=
  a.segmentType.toNat + 2 ^ 4 * a.userSegment.toNat + 2 ^ 5 * a.descriptorPrivilegeLevel.toNat +
    2 ^ 7 * a.present.toNat + 2 ^ 8 * a.limitHigh.toNat + 2 ^ 12 * a.available.toNat +
    2 ^ 13 * a.longMode.toNat + 2 ^ 14 * a.protectedMode.toNat + 2 ^ 15 * a.granularity.toNat

def UserGDTEntry.encode (e : UserGDTEntry) : Bytes :=
  Bytes.le 2 e.limitLow.toNat ++ Bytes.le 3 e.baseLow.toNat ++ Bytes.le 2 e.attributes.encode ++
    Bytes.le 1 e.baseHigh.toNat

/-- `offsetof(GDT, kernel_code)`. -/
def kernelCs : Nat := 8

namespace Idt

open ByteMemory

/-- The code that a gate enters. -/
inductive Handler where
  | exception (number : Nat)
  | breakpoint
  | pagefault
  | hv
  | reserved
  | nopInterrupt
  | wakeup
  deriving DecidableEq, Repr

/-- The addresses of `gdtr`, `idt` and of the handlers. -/
structure Addresses where
  gdtr : Nat
  idt : Nat
  address : Handler → Nat

/-- What `sgdt` stores. -/
structure TableRegister where
  limit : Nat
  base : Nat

/-- An operand that is addressed with 32-bit registers. -/
def operand (n : Nat) : Nat := n % 2 ^ 32

/-- The stores of `install_exception_gate` and `install_interrupt_gate`, which differ in the type;
`offset` is that of the gate in the table. -/
def installGate (edi si type offset rax : Nat) (m : Memory) : Memory :=
  let m := store m (operand (edi + offset)) (Bytes.le 2 rax)
  let m := store m (operand (edi + offset + 2)) (Bytes.le 2 si)
  let m := store m (operand (edi + offset + 4)) (Bytes.le 1 1)
  let m := store m (operand (edi + offset + 5)) (Bytes.le 1 type)
  let rax := rax / 2 ^ 16
  let m := store m (operand (edi + offset + 6)) (Bytes.le 2 rax)
  let rax := rax / 2 ^ 16
  let m := store m (operand (edi + offset + 8)) (Bytes.le 4 rax)
  store m (operand (edi + offset + 12)) (Bytes.le 4 0)

variable (S : Addresses)

def installExceptionGate (si : Nat) (m : Memory) (gate : Nat × Handler) : Memory :=
  installGate S.idt si 0x8f (gate.1 * 16) (S.address gate.2) m

def installInterruptGate (si ecx : Nat) (handler : Handler) (m : Memory) : Memory :=
  installGate S.idt si 0x8e ecx (S.address handler) m

def enableGateForCompartments (vector : Nat) (m : Memory) : Memory :=
  let al := m (operand (S.idt + vector * 16 + 5))
  store m (operand (S.idt + vector * 16 + 5)) [al ||| 0x60]

/-- The gates up to the breakpoint, which is changed before the others are stored. -/
def firstGates : List (Nat × Handler) :=
  [(0, .exception 0), (1, .exception 1), (2, .exception 2), (3, .breakpoint)]

def otherGates : List (Nat × Handler) :=
  [(4, .exception 4), (5, .exception 5), (6, .exception 6), (7, .exception 7), (8, .exception 8),
    (9, .exception 9), (10, .exception 10), (11, .exception 11), (12, .exception 12),
    (13, .exception 13), (14, .pagefault), (15, .reserved), (16, .exception 16),
    (17, .exception 17), (18, .exception 18), (19, .exception 19), (20, .exception 20),
    (21, .reserved), (22, .reserved), (23, .reserved), (24, .reserved), (25, .reserved),
    (26, .reserved), (27, .reserved), (28, .hv), (29, .reserved), (30, .exception 30),
    (31, .reserved)]

/-- `.loop_gdt_code_search`, from the address of the table of segments to the first descriptor
whose type has the bit of code segments. -/
def gdtCodeSearch (m : Memory) : Nat → Nat → Result Nat :=
  Outcome.scan .diverge
    (fun esi => if m (operand (esi + 5)) &&& 0x08 ≠ 0 then some esi else none)
    (fun esi => operand (esi + 8))

/-- `.loop_install_interrupt_gates`. -/
def installInterruptGates (si : Nat) : Nat → Nat → Memory → Result Memory
  | 0, _, _ => .error .diverge
  | fuel + 1, ecx, m =>
      let ecx := ecx - 16
      let m := installInterruptGate S si ecx .nopInterrupt m
      if 32 * 16 ≤ ecx then installInterruptGates si fuel ecx m else .ok m

def setupIdtGeneric (fuel : Nat) (register : TableRegister) (m : Memory) : Result Memory := do
  let m := store m S.gdtr (Bytes.le 2 register.limit ++ Bytes.le 8 register.base)
  let start := Bytes.ofLe (load m (S.gdtr + 2) 4)
  let esi ← gdtCodeSearch m fuel start
  let si := (esi + 2 ^ 32 - start) % 2 ^ 32
  let m := firstGates.foldl (installExceptionGate S si) m
  let m := enableGateForCompartments S 3 m
  let m := otherGates.foldl (installExceptionGate S si) m
  let m ← installInterruptGates S si fuel (256 * 16) m
  .ok (installInterruptGate S si (0x80 * 16) .wakeup m)

/-! ### What the processor finds -/

inductive GateType where
  | trap
  | interrupt
  | other
  deriving DecidableEq, Repr

/-- A gate as the processor reads it. -/
structure Gate where
  offset : Nat
  selector : Nat
  ist : Nat
  type : GateType
  privilege : Nat
  present : Bool
  deriving DecidableEq, Repr

def Gate.decode (bytes : Bytes) : Gate :=
  let attributes := Bytes.ofLe (Bytes.slice 5 1 bytes)
  { offset := Bytes.ofLe (Bytes.slice 0 2 bytes) + 2 ^ 16 * Bytes.ofLe (Bytes.slice 6 2 bytes) +
      2 ^ 32 * Bytes.ofLe (Bytes.slice 8 4 bytes)
    selector := Bytes.ofLe (Bytes.slice 2 2 bytes)
    ist := Bytes.ofLe (Bytes.slice 4 1 bytes) % 8
    type := if attributes % 32 = 0xf then .trap else if attributes % 32 = 0xe then .interrupt
      else .other
    privilege := attributes / 32 % 4
    present := decide (128 ≤ attributes) }

/-- The gate of a vector. -/
def gate (m : Memory) (vector : Nat) : Gate := Gate.decode (slot m S.idt 16 vector)

/-- The handler that each vector is to have. -/
def handler (vector : Nat) : Handler :=
  if vector = 0x80 then .wakeup
  else if 31 ≤ vector then .nopInterrupt
  else if vector = 3 then .breakpoint
  else if vector = 14 then .pagefault
  else if vector = 28 then .hv
  else if vector = 15 ∨ 21 ≤ vector ∧ vector ≠ 30 then .reserved
  else .exception vector

/-- `int n` by a program at a privilege level reaches the gate only if the gate allows it. -/
def Gate.allows (gate : Gate) (level : Nat) : Bool := decide (level ≤ gate.privilege)

/-! ### The stores of a gate -/

variable {S : Addresses} {m : Memory} {ist si type rax vector ecx : Nat}

/-- The bytes of a gate. -/
def gateBytes (ist si type rax : Nat) : Bytes :=
  Bytes.le 2 rax ++ Bytes.le 2 si ++ Bytes.le 1 ist ++ Bytes.le 1 type ++
    Bytes.le 2 (rax / 2 ^ 16) ++ Bytes.le 4 (rax / 2 ^ 16 / 2 ^ 16) ++ Bytes.le 4 0

theorem length_gateBytes : (gateBytes ist si type rax).length = 16 := by
  simp only [gateBytes, List.length_append, Bytes.length_le]

/-- Below 4 GiB the stores of a gate are one store of its bytes. -/
theorem installGate_eq {edi offset : Nat} (fits : edi + offset + 16 ≤ 2 ^ 32) :
    installGate edi si type offset rax m = store m (edi + offset) (gateBytes 1 si type rax) := by
  have low : ∀ k < 16, operand (edi + offset + k) = edi + offset + k := fun k _ =>
    Nat.mod_eq_of_lt (by omega)
  have first : operand (edi + offset) = edi + offset := low 0 (by decide)
  rw [installGate, first, low 2 (by decide), low 4 (by decide), low 5 (by decide),
    low 6 (by decide), low 8 (by decide), low 12 (by decide)]
  rw [store_store (by simp), store_store (by simp), store_store (by simp), store_store (by simp),
    store_store (by simp), store_store (by simp)]
  rfl

/-- The processor reads a gate as it was meant. -/
theorem decode_gateBytes (address : rax < 2 ^ 64) (selector : si < 2 ^ 16) (entry : ist < 8)
    (byte : type < 256) : Gate.decode (gateBytes ist si type rax) =
      { offset := rax
        selector := si
        ist
        type := if type % 32 = 0xf then .trap else if type % 32 = 0xe then .interrupt else .other
        privilege := type / 32 % 4
        present := decide (128 ≤ type) } := by
  have low : Bytes.slice 0 2 (gateBytes ist si type rax) = Bytes.le 2 rax := by
    simp [gateBytes, Bytes.slice, Bytes.le]
  have segment : Bytes.slice 2 2 (gateBytes ist si type rax) = Bytes.le 2 si := by
    simp [gateBytes, Bytes.slice, Bytes.le]
  have stack : Bytes.slice 4 1 (gateBytes ist si type rax) = Bytes.le 1 ist := by
    simp [gateBytes, Bytes.slice, Bytes.le]
  have attributes : Bytes.slice 5 1 (gateBytes ist si type rax) = Bytes.le 1 type := by
    simp [gateBytes, Bytes.slice, Bytes.le]
  have middle : Bytes.slice 6 2 (gateBytes ist si type rax) = Bytes.le 2 (rax / 2 ^ 16) := by
    simp [gateBytes, Bytes.slice, Bytes.le]
  have high : Bytes.slice 8 4 (gateBytes ist si type rax) = Bytes.le 4 (rax / 2 ^ 16 / 2 ^ 16) := by
    simp [gateBytes, Bytes.slice, Bytes.le]
  have split : rax % 256 ^ 2 + 2 ^ 16 * (rax / 2 ^ 16 % 256 ^ 2) +
      2 ^ 32 * (rax / 2 ^ 16 / 2 ^ 16 % 256 ^ 4) = rax := by omega
  simp only [Gate.decode, low, segment, stack, attributes, middle, high, Bytes.ofLe_le, split,
    Nat.pow_one, Nat.mod_eq_of_lt byte, Nat.mod_eq_of_lt entry,
    Nat.mod_eq_of_lt (show ist < 256 by omega), Nat.mod_eq_of_lt (show si < 256 ^ 2 from selector)]

/-! ### The table after each part -/

/-- The table has been written with these gates, and nothing else has been. -/
structure Written (S : Addresses) (m m' : Memory) (gates : Nat → Bytes) : Prop where
  gates : slot m' S.idt 16 = gates
  outside : ∀ a, a < S.idt ∨ S.idt + 256 * 16 ≤ a → m' a = m a

variable {m' : Memory} {gates : Nat → Bytes}

theorem Written.install (h : Written S m m' gates) (fits : S.idt + 256 * 16 ≤ 2 ^ 32)
    (small : vector < 256) (si type rax : Nat) :
    Written S m (installGate S.idt si type (vector * 16) rax m')
      (Function.update gates vector (gateBytes 1 si type rax)) := by
  rw [installGate_eq (by omega), Nat.mul_comm vector]
  constructor
  · rw [slot_store length_gateBytes, h.gates]
  · intro a outside
    rw [store_outside (by rw [length_gateBytes]; omega)]
    exact h.outside a outside

theorem Written.exceptions (fits : S.idt + 256 * 16 ≤ 2 ^ 32) {list : List (Nat × Handler)}
    (small : ∀ g ∈ list, g.1 < 256) (si : Nat) (h : Written S m m' gates) :
    Written S m (list.foldl (installExceptionGate S si) m')
      (Function.updates gates (list.map fun g => (g.1, gateBytes 1 si 0x8f (S.address g.2)))) := by
  induction list generalizing m' gates with
  | nil => exact h
  | cons g list ih =>
      exact ih (fun g mem => small g (List.mem_cons_of_mem _ mem))
        (h.install fits (small g List.mem_cons_self) si 0x8f (S.address g.2))

/-- The type of a gate with the bits of the privilege level set. -/
theorem set_gateBytes : (gateBytes 1 si 0x8f rax).set 5
    ((gateBytes 1 si 0x8f rax).getD 5 0 ||| 0x60) = gateBytes 1 si 0xef rax := by
  have type : (143 : UInt8) ||| 96 = 239 := by decide
  simp [gateBytes, Bytes.le, type]

theorem Written.enable (h : Written S m m' gates) (fits : S.idt + 256 * 16 ≤ 2 ^ 32)
    (small : vector < 256) (there : gates vector = gateBytes 1 si 0x8f rax) :
    Written S m (enableGateForCompartments S vector m')
      (Function.update gates vector (gateBytes 1 si 0xef rax)) := by
  have low : operand (S.idt + vector * 16 + 5) = S.idt + 16 * vector + 5 := by
    rw [operand, Nat.mod_eq_of_lt (by omega), Nat.mul_comm vector]
  have type : m' (S.idt + 16 * vector + 5) = (gateBytes 1 si 0x8f rax).getD 5 0 := by
    rw [← there, ← h.gates]
    simp [slot, load]
  rw [enableGateForCompartments, low, type]
  constructor
  · rw [slot_store_byte (by decide), h.gates, there, set_gateBytes]
  · intro a outside
    rw [store_outside (by simp only [List.length_singleton]; omega)]
    exact h.outside a outside

/-- One round of the loop. -/
theorem nop_update {n : Nat} {bytes : Bytes} (above : 32 ≤ n) :
    (fun v => if 31 ≤ v ∧ v < n then bytes else gates v) =
      fun v => if 31 ≤ v ∧ v < n - 1 then bytes else Function.update gates (n - 1) bytes v := by
  funext v
  by_cases same : v = n - 1
  · subst same
    rw [Function.update_self, if_pos (by omega), ite_self]
  · rw [Function.update_of_ne same]
    exact if_congr (by omega) rfl rfl

/-- Going down from a gate, the loop ends with the one before the first interrupt. -/
theorem Written.interrupts (fits : S.idt + 256 * 16 ≤ 2 ^ 32) {n fuel : Nat} (above : 32 ≤ n)
    (below : n ≤ 256) (budget : n < 32 + fuel) (si : Nat) (h : Written S m m' gates) :
    ∃ after, installInterruptGates S si fuel (n * 16) m' = .ok after ∧
      Written S m after fun v =>
        if 31 ≤ v ∧ v < n then gateBytes 1 si 0x8e (S.address .nopInterrupt) else gates v := by
  induction fuel generalizing n m' gates with
  | zero => omega
  | succ fuel ih =>
      have previous : n * 16 - 16 = (n - 1) * 16 := by omega
      have stored := h.install fits (show n - 1 < 256 by omega) si 0x8e (S.address .nopInterrupt)
      rw [installInterruptGates, previous]
      by_cases more : 32 * 16 ≤ (n - 1) * 16
      · obtain ⟨after, run, written⟩ := ih (n := n - 1) (by omega) (by omega) (by omega) stored
        refine ⟨after, (if_pos more).trans run, ?_⟩
        rw [nop_update (by omega)]
        exact written
      · have last : n = 32 := by omega
        subst last
        have none : ∀ bytes : Bytes, (fun v => if 31 ≤ v ∧ v < 32 - 1 then bytes
            else Function.update gates (32 - 1) bytes v) = Function.update gates (32 - 1) bytes :=
          fun bytes => funext fun v => if_neg (by omega)
        refine ⟨_, if_neg more, ?_⟩
        rw [nop_update (by omega), none]
        exact stored

/-! ### The whole table -/

/-- The privilege level of a gate. -/
def privilege (vector : Nat) : Nat := if vector = 3 then 3 else 0

/-- The type of a gate as it is stored. -/
def attributes (vector : Nat) : Nat :=
  if vector = 3 then 0xef else if vector < 31 then 0x8f else 0x8e

/-- The exceptions have the gates that are listed for them. -/
theorem lookup_gates : ∀ v < 31, v ≠ 3 →
    (otherGates.reverse.lookup v).or (firstGates.reverse.lookup v) = some (handler v) := by
  decide

theorem lookup_map {β : Type} (list : List (Nat × Handler)) (f : Handler → β) (v : Nat) :
    (list.map fun g => (g.1, f g.2)).lookup v = (list.lookup v).map f := by
  induction list with
  | nil => rfl
  | cons g list ih =>
      rw [List.map_cons, List.lookup_cons, List.lookup_cons]
      cases v == g.1
      · exact ih
      · rfl

/-- The gates after all parts. -/
theorem Written.all (fits : S.idt + 256 * 16 ≤ 2 ^ 32) {fuel : Nat} (budget : 224 < fuel)
    (m : Memory) (si : Nat) : ∃ after,
      installInterruptGates S si fuel (256 * 16) (otherGates.foldl (installExceptionGate S si)
        (enableGateForCompartments S 3 (firstGates.foldl (installExceptionGate S si) m))) =
        .ok after ∧
      ∃ gates, Written S m (installInterruptGate S si (0x80 * 16) .wakeup after) gates ∧
        ∀ v < 256, gates v = gateBytes 1 si (attributes v) (S.address (handler v)) := by
  have start : Written S m m (slot m S.idt 16) := ⟨rfl, fun _ _ => rfl⟩
  have first := Written.exceptions fits (show ∀ g ∈ firstGates, g.1 < 256 by decide) si start
  have opened := first.enable fits (show 3 < 256 by decide)
    (show _ = gateBytes 1 si 0x8f (S.address .breakpoint) by rw [Function.updates_apply]; rfl)
  have others := Written.exceptions fits (show ∀ g ∈ otherGates, g.1 < 256 by decide) si opened
  obtain ⟨after, run, interrupts⟩ := Written.interrupts fits (show 32 ≤ 256 by decide)
    (show 256 ≤ 256 by decide) (show 256 < 32 + fuel by omega) si others
  refine ⟨after, run, _, interrupts.install fits (show 0x80 < 256 by decide) si 0x8e _,
    fun v small => ?_⟩
  by_cases wakeup : v = 0x80
  · subst wakeup
    rw [Function.update_self]
    rfl
  rw [Function.update_of_ne wakeup]
  by_cases interrupt : 31 ≤ v
  · rw [if_pos ⟨interrupt, small⟩, attributes, if_neg (by omega), if_neg (by omega), handler,
      if_neg wakeup, if_pos interrupt]
  rw [if_neg (by omega), Function.updates_apply, ← List.map_reverse,
    lookup_map _ (fun h => gateBytes 1 si 0x8f (S.address h))]
  by_cases breakpoint : v = 3
  · subst breakpoint
    rfl
  rw [Function.update_of_ne breakpoint, Function.updates_apply, ← List.map_reverse,
    lookup_map _ (fun h => gateBytes 1 si 0x8f (S.address h)), attributes, if_neg breakpoint,
    if_pos (by omega)]
  have listed := lookup_gates v (by omega) breakpoint
  cases other : otherGates.reverse.lookup v with
  | some h =>
      rw [other, Option.some_or] at listed
      rw [Option.some.inj listed]
      rfl
  | none =>
      rw [other, Option.none_or] at listed
      rw [listed]
      rfl

/-! ### The search for the code segment -/

/-- The bytes that are loaded at an offset. -/
theorem byte_of_load {address size x : Nat} {bytes : Bytes} (there : load m address size = bytes)
    (inside : x < size) : m (address + x) = bytes.getD x 0 := by
  rw [← there]
  simp [load, inside]

/-- The base of the table of segments, which is below 4 GiB. -/
theorem ofLe_load_base {register : TableRegister} (low : register.base < 2 ^ 32) :
    Bytes.ofLe (load (store m S.gdtr (Bytes.le 2 register.limit ++ Bytes.le 8 register.base))
      (S.gdtr + 2) 4) = register.base := by
  have bytes : load (store m S.gdtr (Bytes.le 2 register.limit ++ Bytes.le 8 register.base))
      (S.gdtr + 2) 4 = Bytes.le 4 register.base := by
    simp [load, store, List.range_succ, Bytes.le, Nat.add_assoc]
  rw [bytes, Bytes.ofLe_le, Nat.mod_eq_of_lt (show register.base < 256 ^ 4 from low)]

/-- The table starts with the empty descriptor and that of the kernel's code. -/
theorem gdtCodeSearch_eq {base fuel : Nat} (low : base + 16 ≤ 2 ^ 32) (budget : 1 < fuel)
    (gdt : load m base 16 = nullSegment.encode ++ (codeSegment64 0).encode) :
    gdtCodeSearch m fuel base = .ok (base + 8) := by
  have empty : m (base + 5) = 0 := byte_of_load gdt (by decide)
  have code : m (base + 13) = 0x9b := byte_of_load gdt (by decide)
  have next : operand (base + 8) = base + 8 := Nat.mod_eq_of_lt (by omega)
  have five : operand (base + 5) = base + 5 := Nat.mod_eq_of_lt (by omega)
  have thirteen : operand (base + 8 + 5) = base + 13 := Nat.mod_eq_of_lt (by omega)
  refine Outcome.scan_eq_ok_iff.mpr ⟨1, budget, fun j first => ?_, ?_⟩
  · obtain rfl : j = 0 := by omega
    rw [Function.iterate_zero_apply, five, empty]
    rfl
  · rw [Function.iterate_one, next, thirteen, code]
    rfl

end Idt

open Idt ByteMemory in
/-- With the table of segments of the kernel, every gate leads to its handler in the kernel's code
segment, on the first interrupt stack. Exceptions leave interrupts enabled and interrupts do not; a
compartment can raise the breakpoint and nothing else. Exception 31 has lost its handler to the
interrupts. No other memory is written. -/
theorem setup_idt_generic_installs (S : Addresses) (m : Memory) (register : TableRegister)
    (fuel : Nat) (fits : S.idt + 256 * 16 ≤ 2 ^ 32) (low : register.base + 16 ≤ 2 ^ 32)
    (gdt : load m register.base 16 = nullSegment.encode ++ (codeSegment64 0).encode)
    (apart : register.base + 16 ≤ S.gdtr ∨ S.gdtr + 10 ≤ register.base)
    (addresses : ∀ h, S.address h < 2 ^ 64) (budget : 224 < fuel) :
    ∃ after, setupIdtGeneric S fuel register m = .ok after ∧
      (∀ v < 256, gate S after v =
        ⟨S.address (handler v), kernelCs, 1, if v < 31 then .trap else .interrupt, privilege v,
          true⟩) ∧
      (∀ v < 256, (gate S after v).allows 3 = true ↔ v = 3) ∧
      ∀ a, a < S.idt ∨ S.idt + 256 * 16 ≤ a → a < S.gdtr ∨ S.gdtr + 10 ≤ a → after a = m a := by
  generalize stored : store m S.gdtr (Bytes.le 2 register.limit ++ Bytes.le 8 register.base) = m₁
  have elsewhere : ∀ a, a < S.gdtr ∨ S.gdtr + 10 ≤ a → m₁ a = m a := by
    intro a outside
    rw [← stored]
    exact store_outside (by simpa using outside)
  have same : load m₁ register.base 16 = load m register.base 16 :=
    load_congr fun x inside => elsewhere _ (by omega)
  have base : Bytes.ofLe (load m₁ (S.gdtr + 2) 4) = register.base := by
    rw [← stored]
    exact ofLe_load_base (by omega)
  have search := gdtCodeSearch_eq low (show 1 < fuel by omega) (same.trans gdt)
  have selector : (register.base + 8 + 2 ^ 32 - register.base) % 2 ^ 32 = kernelCs := by
    unfold kernelCs
    omega
  obtain ⟨before, run, gates, written, all⟩ := Written.all fits budget m₁ kernelCs
  have decoded : ∀ v < 256, gate S (installInterruptGate S kernelCs (0x80 * 16) .wakeup before) v =
      ⟨S.address (handler v), kernelCs, 1, if v < 31 then .trap else .interrupt, privilege v,
        true⟩ := by
    intro v small
    have type : attributes v < 256 := by
      unfold attributes
      split
      · decide
      · split <;> decide
    rw [gate, written.gates, all v small,
      decode_gateBytes (addresses _) (by decide) (by decide) type]
    unfold attributes privilege
    by_cases breakpoint : v = 3
    · subst breakpoint
      rfl
    · by_cases exception : v < 31
      · simp [breakpoint, exception]
      · simp [breakpoint, exception]
  refine ⟨_, ?_, decoded, fun v small => ?_, fun a table register => ?_⟩
  · simp only [setupIdtGeneric, stored, base, search, selector, bind, Except.bind]
    simp only [run]
  · rw [decoded v small]
    unfold Gate.allows privilege
    by_cases breakpoint : v = 3
    · simp [breakpoint]
    · simp [breakpoint]
  · rw [written.outside a table, elsewhere a register]

namespace Idt

/-- The kernel at 6 MiB, handlers 64 bytes apart. -/
def sampleAddresses : Addresses where
  gdtr := 0x620000
  idt := 0x621000
  address
    | .exception n => 0x600000 + 64 * (n % 32)
    | .breakpoint => 0x600800
    | .pagefault => 0x600840
    | .hv => 0x600880
    | .reserved => 0x6008c0
    | .nopInterrupt => 0x600900
    | .wakeup => 0x600940

/-- Only the table of segments is in memory. -/
def sampleMemory : ByteMemory.Memory :=
  ByteMemory.store (fun _ => 0) 0x610000 (nullSegment.encode ++ (codeSegment64 0).encode)

end Idt

open Idt in
theorem setup_idt_generic_installs_sample : ∃ after,
    setupIdtGeneric sampleAddresses 300 ⟨0x102f, 0x610000⟩ sampleMemory = .ok after ∧
      gate sampleAddresses after 14 = ⟨0x600840, 8, 1, .trap, 0, true⟩ ∧
      gate sampleAddresses after 31 = ⟨0x600900, 8, 1, .interrupt, 0, true⟩ := by
  obtain ⟨after, run, gates, -, -⟩ := setup_idt_generic_installs sampleAddresses sampleMemory
    ⟨0x102f, 0x610000⟩ 300 (by decide) (by decide) ByteMemory.load_store (by decide)
    (fun h => by cases h <;> simp only [sampleAddresses] <;> omega) (by decide)
  exact ⟨after, run, gates 14 (by decide), gates 31 (by decide)⟩

end Monza
