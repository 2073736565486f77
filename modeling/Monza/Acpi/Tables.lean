import Monza.Machine
import Monza.Lib.Exploration
import Monza.Lib.Logged
import Monza.Lib.Outcome

/-!
# The tables of the firmware

The root table, in its two widths, lists pointers to further tables, of which the one with the
processors (MADT) is used. All that is read from a table is recorded with its offset in
the table, and so is every pointer that is looked at.

Entries of the MADT differ in length, and the traversal steps by the length that an entry
gives itself. An entry of length zero holds it forever.
-/

namespace Monza.Acpi

open Outcome

abbrev Memory := Nat → BitVec 8

/-- A byte of a table that is read, or a pointer of a root table that is looked at. -/
inductive Access where
  | read (table offset : Nat)
  | visit (table index : Nat)
  deriving DecidableEq, Repr

abbrev Parse := Logged Access Fault

/-- The little-endian word at an address. -/
def wordAt (memory : Memory) (address : Nat) : Nat → Nat
  | 0 => 0
  | width + 1 => (memory (u64 address)).toNat + 256 * wordAt memory (address + 1) width

/-- `sizeof(ACPISDTHeader)`. -/
def sizeofHeader : Nat := 36

/-- `sizeof(MADT)`. -/
def sizeofMadt : Nat := 44

/-- `sizeof(MADTEntryLogicalProcessor)`. -/
def sizeofLogicalProcessor : Nat := 8

def rsdtSignature : Nat := 0x54445352

def xsdtSignature : Nat := 0x54445358

def madtSignature : Nat := 0x43495041

def maxCoreCount : Nat := 256

/-- What `parse_madt` sets up. -/
structure CoreSetup where
  localApicMapping : Nat
  numCores : Nat
  apicIds : List (BitVec 8)
  deriving DecidableEq, Repr

section Definitions

variable (memory : Memory) (table : Nat)

def readByte (offset : Nat) : Parse (BitVec 8) :=
  ⟨[.read table offset], .ok (memory (u64 (table + offset)))⟩

def readWord (offset width : Nat) : Parse Nat :=
  ⟨(List.range' offset width).map (.read table), .ok (wordAt memory (table + offset) width)⟩

/-- `verify_checksum`, with the sum of the bytes as a `uint8_t`. -/
def verifyChecksum (size : Nat) : Parse Bool :=
  ⟨(List.range size).map (.read table), .ok (decide ((List.range size).foldl
    (fun checksum i => checksum + memory (u64 (table + i))) 0#8 = 0#8))⟩

variable {σ : Type}

/-- The filter of `traverse_logical_processors`. The length is read only for the right type. -/
def visitEntry (op : Nat → σ → Parse σ) (entry : Nat) (s : σ) : Parse σ := do
  let type ← readByte memory table entry
  if type = 0#8 then do
    let length ← readByte memory table (entry + 1)
    if length.toNat ≥ sizeofLogicalProcessor then op entry s else pure s
  else pure s

/-- `traverse_logical_processors` from an offset on, over `size` bytes behind the fixed part. -/
def traverseLogicalProcessors (size : Nat) (op : Nat → σ → Parse σ) : Nat → Nat → σ → Parse σ
  | 0, _, _ => .fail .diverge
  | fuel + 1, offset, s =>
    if offset < size then do
      let entry := sizeofMadt + offset
      let s ← visitEntry memory table op entry s
      let length ← readByte memory table (entry + 1)
      traverseLogicalProcessors size op fuel (u64 (offset + length.toNat)) s
    else pure s

/-- The operation of the first traversal. -/
def countCore (_ numCores : Nat) : Parse Nat := pure (numCores + 1)

/-- The operation of the second traversal, with the check of `PerCoreData::get`. -/
def storeApicId (numCores entry : Nat) (apicIds : List (BitVec 8)) : Parse (List (BitVec 8)) := do
  let apicId ← readByte memory table (entry + 3)
  if apicIds.length < numCores then pure (apicIds ++ [apicId]) else .fail .kabort

/-- The two traversals of `parse_madt`, with the check of `PerCoreData::initialize` in between. -/
def setupCores (localApicAddress size fuel : Nat) : Parse CoreSetup := do
  let numCores ← traverseLogicalProcessors memory table size countCore fuel 0 0
  if numCores = 0 ∨ numCores > maxCoreCount then .fail .kabort
  else do
    let apicIds ← traverseLogicalProcessors memory table size
      (storeApicId memory table numCores) fuel 0 []
    pure ⟨localApicAddress, numCores, apicIds⟩

/-- `parse_madt`, with a bound on the iterations of each traversal. -/
def parseMadt (fuel : Nat) : Parse CoreSetup := do
  let length ← readWord memory table 4 4
  let valid ← verifyChecksum memory table length
  if !valid then .fail .kabort
  else do
    let localApicAddress ← readWord memory table 36 4
    let length ← readWord memory table 4 4
    setupCores memory table localApicAddress (sub64 length sizeofMadt) fuel

end Definitions

section Roots

variable (memory : Memory) (fuel : Nat)

def parseEntry (entryPointer : Nat) (s : CoreSetup) : Parse CoreSetup :=
  if entryPointer = 0 then pure s
  else do
    let signature ← readWord memory entryPointer 0 4
    if signature = madtSignature then parseMadt memory entryPointer fuel else pure s

/-- A root table with pointers of the given width. -/
def parseRoot (expected width table : Nat) (s : CoreSetup) : Parse CoreSetup := do
  let signature ← readWord memory table 0 4
  if signature ≠ expected then .fail .kabort
  else do
    let length ← readWord memory table 4 4
    let valid ← verifyChecksum memory table length
    if !valid then .fail .kabort
    else do
      let length ← readWord memory table 4 4
      let sdtEntries := sub64 length sizeofHeader / width
      (List.range sdtEntries).foldlM (fun s entryIndex => do
        Logged.tell [.visit table entryIndex]
        let pointer ← readWord memory table (sizeofHeader + width * entryIndex) width
        parseEntry memory fuel pointer s) s

def parseRsdt (rsdtBase : Nat) (s : CoreSetup) : Parse CoreSetup :=
  parseRoot memory fuel rsdtSignature 4 rsdtBase s

def parseXsdt (xsdtBase : Nat) (s : CoreSetup) : Parse CoreSetup :=
  parseRoot memory fuel xsdtSignature 8 xsdtBase s

end Roots

/-! ## The walk over the entries -/

section Walk

variable (memory : Memory) (table size : Nat)

def typeAt (offset : Nat) : BitVec 8 := memory (u64 (table + (sizeofMadt + offset)))

def lengthAt (offset : Nat) : Nat := (memory (u64 (table + (sizeofMadt + offset + 1)))).toNat

def nextOffset (offset : Nat) : Nat := u64 (offset + lengthAt memory table offset)

/-- The offsets of the first iterations. -/
def offsets : Nat → Nat → List Nat
  | 0, _ => []
  | fuel + 1, offset =>
    if offset < size then offset :: offsets fuel (nextOffset memory table offset) else []

/-- Whether the traversal is over after so many loop heads. -/
def ended : Nat → Nat → Bool
  | 0, _ => false
  | fuel + 1, offset => if offset < size then ended fuel (nextOffset memory table offset) else true

/-- An entry that some iteration looks at. -/
def Visited (offset : Nat) : Prop := ∃ fuel, offset ∈ offsets memory table size fuel 0

/-- The length that the header of a table declares. -/
def declaredLength : Nat := wordAt memory (table + 4) 4

/-- The table passes the test of its checksum. -/
def ChecksumOk : Prop :=
  (verifyChecksum memory table (declaredLength memory table)).result = .ok true

end Walk

variable {memory : Memory} {table size offset fuel : Nat} {σ : Type} {op : Nat → σ → Parse σ}
variable {s : σ}

/-- One iteration of the traversal. -/
def iterate (memory : Memory) (table : Nat) (op : Nat → σ → Parse σ) (s : σ) (offset : Nat) :
    Parse σ := do
  let s ← visitEntry memory table op (sizeofMadt + offset) s
  let _ ← readByte memory table (sizeofMadt + offset + 1)
  pure s

/-! ## Reads -/

section Reads

def reads (table : Nat) (bytes : List Nat) : Parse Unit := Logged.tell (bytes.map (.read table))

variable {α : Type}

theorem readWord_bind {width : Nat} (f : Nat → Parse α) :
    (readWord memory table offset width >>= f) =
      (reads table (List.range' offset width) >>= fun _ =>
        f (wordAt memory (table + offset) width)) := rfl

theorem reads_bind {first second : List Nat} (m : Parse α) :
    (reads table first >>= fun _ => reads table second >>= fun _ => m) =
      (reads table (first ++ second) >>= fun _ => m) := by
  rw [reads, reads, reads, List.map_append]
  exact Logged.tell_tell m

theorem readByte_bind (f : BitVec 8 → Parse α) :
    (readByte memory table offset >>= f) =
      (reads table [offset] >>= fun _ => f (memory (u64 (table + offset)))) := rfl

end Reads

/-- The traversal goes over the offsets of its iterations. -/
theorem traverseLogicalProcessors_eq :
    traverseLogicalProcessors memory table size op fuel offset s =
      ((offsets memory table size fuel offset).foldlM (iterate memory table op) s >>= fun s =>
        if ended memory table size fuel offset then pure s else .fail .diverge) := by
  induction fuel generalizing offset s with
  | zero => rfl
  | succ fuel ih =>
      rw [traverseLogicalProcessors, offsets, ended]
      split
      next inside =>
        rw [List.foldlM_cons, iterate, bind_assoc, bind_assoc]
        refine congrArg (visitEntry memory table op (sizeofMadt + offset) s >>= ·)
          (funext fun s => ?_)
        rw [bind_assoc, readByte_bind, readByte_bind]
        refine congrArg (reads table [sizeofMadt + offset + 1] >>= ·) (funext fun _ => ?_)
        rw [pure_bind]
        exact ih
      next => rfl

/-! ## Termination -/

section Termination

theorem ended_of_iterate {n : Nat} (outside : size ≤ (nextOffset memory table)^[n] offset) :
    ended memory table size (n + 1) offset = true := by
  induction n generalizing offset with
  | zero => exact if_neg (Nat.not_lt.mpr outside)
  | succ n ih => rw [ended, ih outside, ite_self]

/-- The walk ends exactly if some jump leaves the array. -/
theorem exists_ended_iff : (∃ fuel, ended memory table size fuel offset = true) ↔
    ∃ n, size ≤ (nextOffset memory table)^[n] offset := by
  constructor
  · rintro ⟨fuel, done⟩
    induction fuel generalizing offset with
    | zero => cases done
    | succ fuel ih =>
        rw [ended] at done
        split at done
        next =>
          obtain ⟨n, outside⟩ := ih done
          exact ⟨n + 1, outside⟩
        next inside => exact ⟨0, Nat.le_of_not_lt inside⟩
  · rintro ⟨n, outside⟩
    exact ⟨n + 1, ended_of_iterate outside⟩

/-- Once over, it stays so. -/
theorem ended_mono {fuel more : Nat} (le : fuel ≤ more)
    (done : ended memory table size fuel offset = true) :
    ended memory table size more offset = true := by
  induction fuel generalizing offset more with
  | zero => cases done
  | succ fuel ih =>
      obtain ⟨more, rfl⟩ := Nat.exists_eq_succ_of_ne_zero (Nat.ne_zero_of_lt le)
      rw [ended] at done ⊢
      split
      next inside =>
        rw [if_pos inside] at done
        exact ih (Nat.le_of_succ_le_succ le) done
      next => rfl

/-- It never takes more iterations than there are bytes. -/
theorem ended_of_leaves {n : Nat} (leaves : size ≤ (nextOffset memory table)^[n] offset) :
    ended memory table size (size + 1) offset = true := by
  have outside : (nextOffset memory table)^[n] offset ∉ Finset.range size := by
    rw [Finset.mem_range]
    exact Nat.not_lt.mpr leaves
  obtain ⟨m, le, outside⟩ := Exploration.exists_iterate_notMem outside
  rw [Finset.card_range] at le
  rw [Finset.mem_range, Nat.not_lt] at outside
  exact ended_mono (Nat.succ_le_succ le) (ended_of_iterate outside)

theorem offsets_of_lt (inside : offset < size) : offsets memory table size (fuel + 1) offset =
    offset :: offsets memory table size fuel (nextOffset memory table offset) :=
  if_pos inside

theorem lengthAt_lt (memory : Memory) (table offset : Nat) : lengthAt memory table offset < 256 :=
  BitVec.isLt _

/-- An entry of length zero is never left. -/
theorem not_ended_at_zero (word : size ≤ 2 ^ 64) (inside : offset < size)
    (zero : lengthAt memory table offset = 0) : ended memory table size fuel offset = false := by
  have stays : nextOffset memory table offset = offset := by
    rw [nextOffset, zero, Nat.add_zero, u64_of_lt (by omega)]
  induction fuel with
  | zero => rfl
  | succ fuel ih => rw [ended, if_pos inside, stays, ih]

theorem not_ended_of_zero {o more : Nat} (word : size ≤ 2 ^ 64)
    (visited : o ∈ offsets memory table size fuel offset)
    (zero : lengthAt memory table o = 0) : ended memory table size more offset = false := by
  induction fuel generalizing offset more with
  | zero => cases visited
  | succ fuel ih =>
      rw [offsets] at visited
      split at visited
      next inside =>
        rcases List.mem_cons.mp visited with rfl | visited
        · exact not_ended_at_zero word inside zero
        · cases more with
          | zero => rfl
          | succ more =>
              rw [ended, if_pos inside]
              exact ih visited
      next => cases visited

/-- Without such entries, every iteration gets on by a byte at least. -/
theorem ended_of_ne_zero (word : size + 255 ≤ 2 ^ 64)
    (nonzero : ∀ fuel, ∀ o ∈ offsets memory table size fuel offset, lengthAt memory table o ≠ 0)
    {n : Nat} (enough : size ≤ offset + n) : ended memory table size (n + 1) offset = true := by
  induction n generalizing offset with
  | zero => exact if_neg (Nat.not_lt.mpr enough)
  | succ n ih =>
      rw [ended]
      split
      next inside =>
        have first := nonzero 1 offset (by rw [offsets_of_lt inside]; exact List.mem_cons_self)
        have small := lengthAt_lt memory table offset
        have next : nextOffset memory table offset = offset + lengthAt memory table offset :=
          u64_of_lt (by omega)
        refine ih (fun fuel o ho => nonzero (fuel + 1) o ?_) (by omega)
        rw [offsets_of_lt inside]
        exact List.mem_cons_of_mem _ ho
      next => rfl

theorem nonzero_of_ended (word : size ≤ 2 ^ 64) (done : ended memory table size fuel 0 = true) :
    ∀ o, Visited memory table size o → lengthAt memory table o ≠ 0 := by
  rintro o ⟨fuel, visited⟩ zero
  rw [not_ended_of_zero word visited zero] at done
  cases done

/-- Over an array of the address space, the walk ends exactly if it meets no entry of length zero,
and then within one iteration per byte. -/
theorem ended_iff (word : size + 255 ≤ 2 ^ 64) :
    ended memory table size (size + 1) 0 = true ↔
      ∀ o, Visited memory table size o → lengthAt memory table o ≠ 0 := by
  refine ⟨nonzero_of_ended (by omega), fun nonzero => ?_⟩
  exact ended_of_ne_zero word (fun fuel o ho => nonzero o ⟨fuel, ho⟩) (Nat.le_add_left _ _)

/-- What the bytes of an array of entries must be for its walk to end. If the array reaches so far
up that the offset can wrap, some jump has to land behind the end. -/
def Leaves (memory : Memory) (table size : Nat) : Prop :=
  if size + 255 ≤ 2 ^ 64 then ∀ o, Visited memory table size o → lengthAt memory table o ≠ 0
  else ∃ n, size ≤ (nextOffset memory table)^[n] 0

theorem ended_iff_leaves :
    ended memory table size (size + 1) 0 = true ↔ Leaves memory table size := by
  rw [Leaves]
  split
  next word => exact ended_iff word
  next =>
    refine ⟨fun done => exists_ended_iff.mp ⟨_, done⟩, ?_⟩
    rintro ⟨n, leaves⟩
    exact ended_of_leaves leaves

theorem exists_ended_iff_leaves :
    (∃ fuel, ended memory table size fuel 0 = true) ↔ Leaves memory table size := by
  rw [← ended_iff_leaves]
  refine ⟨fun some => ?_, fun done => ⟨_, done⟩⟩
  obtain ⟨n, leaves⟩ := exists_ended_iff.mp some
  exact ended_of_leaves leaves

end Termination

/-! ## Results -/

section Results

/-- Whether an entry is one of a processor, for the filter. -/
def isLogicalProcessor (memory : Memory) (table offset : Nat) : Bool :=
  decide (typeAt memory table offset = 0#8) &&
    decide (sizeofLogicalProcessor ≤ lengthAt memory table offset)

def apicIdAt (memory : Memory) (table offset : Nat) : BitVec 8 :=
  memory (u64 (table + (sizeofMadt + offset + 3)))

/-- The bytes of an entry that the filter looks at. -/
def filterBytes (memory : Memory) (table offset : Nat) : List Nat :=
  if typeAt memory table offset = 0#8 then [sizeofMadt + offset, sizeofMadt + offset + 1]
  else [sizeofMadt + offset]

theorem visitEntry_eq : visitEntry memory table op (sizeofMadt + offset) s =
    (reads table (filterBytes memory table offset) >>= fun _ =>
      if isLogicalProcessor memory table offset then op (sizeofMadt + offset) s else pure s) := by
  rw [visitEntry, readByte_bind, filterBytes, isLogicalProcessor]
  change (_ >>= fun _ => if typeAt memory table offset = 0#8 then _ else _) = _
  by_cases type : typeAt memory table offset = 0#8
  · rw [if_pos type, if_pos type, decide_eq_true type, Bool.true_and, readByte_bind, reads_bind]
    simp only [decide_eq_true_eq]
    rfl
  · rw [if_neg type, if_neg type, decide_eq_false type, Bool.false_and]
    rfl

theorem result_visitEntry : (visitEntry memory table op (sizeofMadt + offset) s).result =
    if isLogicalProcessor memory table offset then (op (sizeofMadt + offset) s).result
    else .ok s := by
  rw [visitEntry_eq]
  exact apply_ite Logged.result _ _ _

theorem result_iterate : (iterate memory table op s offset).result =
    if isLogicalProcessor memory table offset then (op (sizeofMadt + offset) s).result
    else .ok s := by
  rw [iterate, Logged.result_bind, result_visitEntry]
  exact bind_pure _

/-- The processors among the entries. -/
def processors (memory : Memory) (table : Nat) (entries : List Nat) : List Nat :=
  entries.filter (isLogicalProcessor memory table)

theorem processors_cons {entries : List Nat} : processors memory table (offset :: entries) =
    if isLogicalProcessor memory table offset then offset :: processors memory table entries
    else processors memory table entries :=
  List.filter_cons

theorem result_count {entries : List Nat} {numCores : Nat} :
    (entries.foldlM (iterate memory table countCore) numCores).result =
      .ok (numCores + (processors memory table entries).length) := by
  induction entries generalizing numCores with
  | nil => rfl
  | cons offset entries ih =>
      rw [List.foldlM_cons, Logged.result_bind, result_iterate, processors_cons]
      split
      next =>
        change (entries.foldlM (iterate memory table countCore) (numCores + 1)).result = _
        rw [ih, List.length_cons, Nat.add_assoc, Nat.add_comm 1]
      next => exact ih

theorem result_store {entries : List Nat} {numCores : Nat} {apicIds : List (BitVec 8)}
    (room : apicIds.length + (processors memory table entries).length ≤ numCores) :
    (entries.foldlM (iterate memory table (storeApicId memory table numCores)) apicIds).result =
      .ok (apicIds ++ (processors memory table entries).map (apicIdAt memory table)) := by
  induction entries generalizing apicIds with
  | nil => exact congrArg Except.ok (List.append_nil _).symm
  | cons offset entries ih =>
      rw [processors_cons] at room ⊢
      rw [List.foldlM_cons, Logged.result_bind, result_iterate]
      split
      next processor =>
        rw [if_pos processor, List.length_cons] at room
        have stored : (storeApicId memory table numCores (sizeofMadt + offset) apicIds).result =
            .ok (apicIds ++ [apicIdAt memory table offset]) := by
          rw [storeApicId, Logged.result_bind, readByte, ok_bind, if_pos (by omega)]
          rfl
        rw [stored, ok_bind, ih (by rw [List.length_append, List.length_singleton]; omega),
          List.map_cons, List.append_assoc, List.singleton_append]
      next processor =>
        rw [if_neg processor] at room
        exact ih room

theorem fold_total (total : ∀ entry s, ∃ t, (op entry s).result = .ok t) (entries : List Nat)
    (s : σ) : ∃ t, (entries.foldlM (iterate memory table op) s).result = .ok t := by
  induction entries generalizing s with
  | nil => exact ⟨s, rfl⟩
  | cons entry entries ih =>
      rw [List.foldlM_cons, Logged.result_bind, result_iterate]
      split
      next =>
        obtain ⟨t, done⟩ := total (sizeofMadt + entry) s
        rw [done, ok_bind]
        exact ih t
      next => exact ih s

/-- An operation that returns leaves it to the walk whether the traversal does. -/
theorem traverse_ne_diverge (total : ∀ entry s, ∃ t, (op entry s).result = .ok t) :
    (traverseLogicalProcessors memory table size op fuel offset s).result ≠ .error .diverge ↔
      ended memory table size fuel offset = true := by
  obtain ⟨t, done⟩ := fold_total total (offsets memory table size fuel offset) s
  rw [traverseLogicalProcessors_eq, Logged.result_bind, done, ok_bind]
  by_cases finished : ended memory table size fuel offset = true
  · simp [finished]
  · simp [finished]

theorem result_traverse_count :
    (traverseLogicalProcessors memory table size countCore fuel 0 0).result =
      if ended memory table size fuel 0 then
        .ok (processors memory table (offsets memory table size fuel 0)).length
      else .error .diverge := by
  rw [traverseLogicalProcessors_eq, Logged.result_bind, result_count, ok_bind, Nat.zero_add,
    apply_ite Logged.result]
  rfl

/-- The traversals end with an abort or with the processors of the table, or not at all. -/
theorem result_setupCores {localApicAddress : Nat} :
    (setupCores memory table localApicAddress size fuel).result =
      if ended memory table size fuel 0 then
        let entries := processors memory table (offsets memory table size fuel 0)
        if entries.length = 0 ∨ entries.length > maxCoreCount then .error .kabort
        else .ok ⟨localApicAddress, entries.length, entries.map (apicIdAt memory table)⟩
      else .error .diverge := by
  rw [setupCores, Logged.result_bind, result_traverse_count]
  by_cases done : ended memory table size fuel 0
  · rw [if_pos done, if_pos done, ok_bind, apply_ite Logged.result, Logged.result_bind,
      traverseLogicalProcessors_eq, Logged.result_bind,
      result_store (Nat.le_of_eq (Nat.zero_add _)), ok_bind, if_pos done]
    rfl
  · rw [if_neg done, if_neg done]
    rfl

end Results

/-! ## Tables that pass their checks -/

section Valid

variable {α : Type}

theorem verifyChecksum_bind (valid : ChecksumOk memory table) (f : Bool → Parse α) :
    (verifyChecksum memory table (declaredLength memory table) >>= f) =
      (reads table (List.range (declaredLength memory table)) >>= fun _ => f true) := by
  rw [Logged.bind_of_ok valid]
  rfl

/-- What is read of a valid table before its entries, with the bytes of its own fields. -/
def fixedBytes (memory : Memory) (table : Nat) (fields : List Nat) : List Nat :=
  List.range' 4 4 ++ (List.range (declaredLength memory table) ++ (fields ++ List.range' 4 4))

theorem parseMadt_of_valid (valid : ChecksumOk memory table) :
    parseMadt memory table fuel =
      (reads table (fixedBytes memory table (List.range' 36 4)) >>= fun _ =>
        setupCores memory table (wordAt memory (table + 36) 4)
          (sub64 (declaredLength memory table) sizeofMadt) fuel) := by
  rw [parseMadt, readWord_bind]
  change (_ >>= fun _ => verifyChecksum memory table (declaredLength memory table) >>= _) = _
  rw [verifyChecksum_bind valid]
  simp only [Bool.not_true, Bool.false_eq_true, if_false, readWord_bind, reads_bind]
  rfl

theorem result_parseMadt (valid : ChecksumOk memory table) :
    (parseMadt memory table fuel).result =
      (setupCores memory table (wordAt memory (table + 36) 4)
        (sub64 (declaredLength memory table) sizeofMadt) fuel).result := by
  rw [parseMadt_of_valid valid]
  rfl

theorem setupCores_ne_diverge {localApicAddress : Nat} :
    (setupCores memory table localApicAddress size fuel).result ≠ .error .diverge ↔
      ended memory table size fuel 0 = true := by
  rw [result_setupCores]
  by_cases done : ended memory table size fuel 0 = true
  · rw [if_pos done]
    refine ⟨fun _ => done, fun _ => ?_⟩
    dsimp only
    split
    next => exact fun no => (by cases no)
    next => exact fun no => (by cases no)
  · simp [done]

/-- A traversal of entries ends within as many iterations as there are bytes, or never; and the
parsing of a valid table ends exactly if the traversal of its entries does. It does not if a
length is zero. A header that declares less than the fixed part has the entries reach up to the
end of the address space. -/
theorem madt_traversal_terminates_iff (memory : Memory) (table : Nat) :
    (∀ (σ : Type) (op : Nat → σ → Parse σ) (s : σ) (size : Nat),
      (∀ entry s, ∃ t, (op entry s).result = .ok t) →
      ((traverseLogicalProcessors memory table size op (size + 1) 0 s).result ≠ .error .diverge ↔
        Leaves memory table size)) ∧
    (ChecksumOk memory table →
      ((∃ fuel, (parseMadt memory table fuel).result ≠ .error .diverge) ↔
        Leaves memory table (sub64 (declaredLength memory table) sizeofMadt))) := by
  constructor
  · intro σ op s size total
    rw [traverse_ne_diverge total, ended_iff_leaves]
  · intro valid
    simp only [result_parseMadt valid, setupCores_ne_diverge]
    exact exists_ended_iff_leaves

/-- A table of the processors at an address, with the given checksum and entries. -/
def madtImage (base : Nat) (length checksum : BitVec 8) (entries : List (BitVec 8)) : Memory :=
  fun address =>
    ([0x41, 0x50, 0x49, 0x43, length, 0, 0, 0, 0, checksum] ++ List.replicate 34 0 ++ entries).getD
      (address - base) 0

/-- One processor with the identifier 7. -/
theorem madt_traversal_terminates_iff_one_core :
    ChecksumOk (madtImage 0x1000 52 159 [0, 8, 0, 7, 1, 0, 0, 0]) 0x1000 ∧
    ∃ fuel, (parseMadt (madtImage 0x1000 52 159 [0, 8, 0, 7, 1, 0, 0, 0]) 0x1000 fuel).result ≠
      .error .diverge := by
  have valid : ChecksumOk (madtImage 0x1000 52 159 [0, 8, 0, 7, 1, 0, 0, 0]) 0x1000 := by
    rw [ChecksumOk]
    decide +kernel
  refine ⟨valid, ((madt_traversal_terminates_iff _ _).2 valid).mpr ?_⟩
  rw [← ended_iff_leaves]
  decide +kernel

/-- The checksum says nothing about the length of an entry. -/
theorem madt_zero_length_hangs :
    ChecksumOk (madtImage 0x1000 46 181 [0, 0]) 0x1000 ∧
    ∀ fuel, (parseMadt (madtImage 0x1000 46 181 [0, 0]) 0x1000 fuel).result = .error .diverge := by
  have valid : ChecksumOk (madtImage 0x1000 46 181 [0, 0]) 0x1000 := by
    rw [ChecksumOk]
    decide +kernel
  have size : sub64 (declaredLength (madtImage 0x1000 46 181 [0, 0]) 0x1000) sizeofMadt = 2 := by
    decide +kernel
  refine ⟨valid, fun fuel => ?_⟩
  have stays : ended (madtImage 0x1000 46 181 [0, 0]) 0x1000 2 fuel 0 = false :=
    not_ended_at_zero (by decide) (by decide) (by decide +kernel)
  rw [result_parseMadt valid, size, result_setupCores, stays]
  rfl

end Valid

end Monza.Acpi
