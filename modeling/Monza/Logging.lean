import Monza.Lib.Arith
import Monza.Lib.Logged
import Monza.Lib.Numeral
import Monza.Lib.Outcome
import Monza.Machine

/-!
# The logger

A `LoggerStream` collects the texts of what is inserted in a buffer of fixed size and puts the
buffer out as one entry at the end of the line. Strings are cut where the buffer ends. Numbers are
left out unless the longest number would fit; their digits are counted first and then written from
the last to the first into a part of the buffer that is reserved for them.

An index outside of the reserved part and a signed overflow are faults of the model.
-/

namespace Monza

inductive LogFault where
  | outOfRange
  | signedOverflow
  | unfinished
  deriving DecidableEq, Repr

inductive IntegerBase where
  | decimal
  | hex
  deriving DecidableEq, Repr

def IntegerBase.value : IntegerBase → Nat
  | decimal => 10
  | hex => 16

/-- The buffer with the end of what is in use. -/
structure LoggingBuffer (size : Nat) where
  buffer : List (BitVec 8)
  position : Nat
  length_eq : buffer.length = size
  position_le : position ≤ size

/-- A part of the buffer. -/
structure OutputRange where
  start : Nat
  size : Nat
  deriving DecidableEq, Repr

/-- The bytes of a string before its terminator. -/
structure CString where
  bytes : List (BitVec 8)
  nonzero : 0#8 ∉ bytes

def CString.strlen (s : CString) : Nat := s.bytes.length

namespace LoggingBuffer

variable {size : Nat} (b : LoggingBuffer size)

def initial (size : Nat) : LoggingBuffer size :=
  ⟨List.replicate size 0#8, 0, List.length_replicate, Nat.zero_le size⟩

def remainingSpace : Nat := size - b.position

def append (input : List (BitVec 8)) : Bool × LoggingBuffer size :=
  if fits : b.remainingSpace < input.length then (false, b)
  else (true,
    { buffer := b.buffer.take b.position ++ input ++ b.buffer.drop (b.position + input.length)
      position := b.position + input.length
      length_eq := by
        have length := b.length_eq
        have le := b.position_le
        rw [remainingSpace] at fits
        simp only [List.length_append, List.length_take, List.length_drop]
        omega
      position_le := by
        have le := b.position_le
        rw [remainingSpace] at fits
        omega })

def reserve (n : Nat) : OutputRange × LoggingBuffer size :=
  if fits : b.remainingSpace < n then (⟨0, 0⟩, b)
  else (⟨b.position, n⟩,
    { b with
      position := b.position + n
      position_le := by
        have le := b.position_le
        rw [remainingSpace] at fits
        omega })

def reset : LoggingBuffer size := { b with position := 0, position_le := Nat.zero_le size }

def getData : List (BitVec 8) := b.buffer.take b.position

/-- `output_range[index] = byte`. -/
def store (range : OutputRange) (index : Nat) (byte : BitVec 8) :
    Except LogFault (LoggingBuffer size) :=
  if index < range.size then
    .ok { b with
      buffer := b.buffer.set (range.start + index) byte
      length_eq := by rw [List.length_set, b.length_eq] }
  else .error .outOfRange

end LoggingBuffer

/-- A word has at most 64 digits. -/
def digitBudget : Nat := 65

def countDigits (base value : Nat) : Except LogFault Nat :=
  Outcome.loop .unfinished (fun tempValue => decide (tempValue ≠ 0)) (· / base)
    (fun _ numDigits => .ok (u64 (numDigits + 1))) digitBudget value 0

/-- One digit at the current index, which then goes down. -/
def writeDigit {size : Nat} (range : OutputRange) (digit : Nat) (s : Nat × LoggingBuffer size) :
    Except LogFault (Nat × LoggingBuffer size) := do
  let b ← s.2.store range s.1 (Numeral.symbol digit)
  .ok (sub64 s.1 1, b)

/-- The digits from the last to the first. After the first the index wraps. -/
def writeDigits {size : Nat} (base : Nat) (range : OutputRange) (value currentDigit : Nat)
    (b : LoggingBuffer size) : Except LogFault (Nat × LoggingBuffer size) :=
  Outcome.loop .unfinished (fun value => decide (value ≠ 0)) (· / base)
    (fun value s => writeDigit range (value % base) s) digitBudget value (currentDigit, b)

namespace LoggingBuffer

variable {size : Nat} (b : LoggingBuffer size)

def logU64 (value : Nat) (format : IntegerBase) : Except LogFault (LoggingBuffer size) :=
  if value = 0 then .ok (b.append [Numeral.symbol 0]).2
  else do
    let numDigits ← countDigits format.value value
    let reserved := b.reserve numDigits
    if reserved.1.size = 0 then .ok reserved.2
    else do
      let written ← writeDigits format.value reserved.1 value (sub64 numDigits 1) reserved.2
      .ok written.2

def insertString (value : CString) : LoggingBuffer size :=
  let length := if b.remainingSpace < value.strlen then b.remainingSpace else value.strlen
  (b.append (value.bytes.take length)).2

/-- The characters `0x`. -/
def hexPrefix : List (BitVec 8) := [0x30#8, 0x78#8]

def insertPointer (value : BitVec 64) : Except LogFault (LoggingBuffer size) :=
  if b.remainingSpace < hexPrefix.length + 8 * 2 then .ok b
  else (b.append hexPrefix).2.logU64 value.toNat .hex

/-- The value is converted to 64 bits. -/
def insertUnsigned {w : Nat} (value : BitVec w) : Except LogFault (LoggingBuffer size) :=
  if b.remainingSpace < 20 then .ok b
  else b.logU64 (value.setWidth 64).toNat .decimal

end LoggingBuffer

/-- The widths of the signed integer types. -/
inductive SignedWidth where
  | w8
  | w16
  | w32
  | w64
  deriving DecidableEq, Repr

namespace SignedWidth

def bits : SignedWidth → Nat
  | w8 => 8
  | w16 => 16
  | w32 => 32
  | w64 => 64

/-- Operands smaller than `int` are promoted. -/
def promotedBits (w : SignedWidth) : Nat := max w.bits 32

end SignedWidth

/-- `static_cast<uint64_t>`. -/
def castU64 (z : Int) : Nat := (z % 2 ^ 64).toNat

/-- The sign `-`. -/
def minusSign : List (BitVec 8) := [0x2d#8]

def LoggingBuffer.insertSigned {size : Nat} (arith : Arithmetic (Except LogFault))
    (b : LoggingBuffer size) (w : SignedWidth) (value : BitVec w.bits) :
    Except LogFault (LoggingBuffer size) :=
  if b.remainingSpace < 1 + 19 then .ok b
  else if 0 ≤ value.toInt then b.logU64 (castU64 value.toInt) .decimal
  else do
    let b := (b.append minusSign).2
    let negated ← arith.signed w.promotedBits (-value.toInt)
    b.logU64 (castU64 negated) .decimal

/-- What is inserted, but for signed integers. -/
inductive LogItem where
  | string (value : CString)
  | pointer (value : BitVec 64)
  | unsigned (w : Nat) (fits : w ≤ 64) (value : BitVec w)

inductive LogInsertion where
  | item (i : LogItem)
  | signed (w : SignedWidth) (value : BitVec w.bits)
  | endl

def LogItem.insert {size : Nat} (b : LoggingBuffer size) :
    LogItem → Except LogFault (LoggingBuffer size)
  | string value => .ok (b.insertString value)
  | pointer value => b.insertPointer value
  | unsigned _ _ value => b.insertUnsigned value

/-- The log has the entries that are put out. -/
abbrev Logging : Type → Type := Logged (List (BitVec 8)) LogFault

def LoggingBuffer.flush {size : Nat} (b : LoggingBuffer size) : Logging (LoggingBuffer size) :=
  ⟨[b.getData], .ok b.reset⟩

def LogInsertion.insert {size : Nat} (arith : Arithmetic (Except LogFault))
    (b : LoggingBuffer size) : LogInsertion → Logging (LoggingBuffer size)
  | item i => ⟨[], i.insert b⟩
  | signed w value => ⟨[], b.insertSigned arith w value⟩
  | endl => b.flush

def insertAll {size : Nat} (arith : Arithmetic (Except LogFault)) (insertions : List LogInsertion)
    (b : LoggingBuffer size) : Logging (LoggingBuffer size) :=
  insertions.foldlM (fun b i => i.insert arith b) b

/-! ## The buffer -/

namespace LoggingBuffer

variable {size : Nat} {b : LoggingBuffer size} {input : List (BitVec 8)}

theorem length_getData : b.getData.length = b.position := by
  rw [getData, List.length_take, b.length_eq, Nat.min_eq_left b.position_le]

theorem remainingSpace_eq : b.remainingSpace = size - b.getData.length := by
  rw [length_getData, remainingSpace]

theorem append_of_lt (full : b.remainingSpace < input.length) : b.append input = (false, b) :=
  dif_pos full

theorem reserve_of_lt {n : Nat} (full : b.remainingSpace < n) : b.reserve n = (⟨0, 0⟩, b) :=
  dif_pos full

theorem reserve_of_le {n : Nat} (fits : n ≤ b.remainingSpace) :
    ∃ b' : LoggingBuffer size, b.reserve n = (⟨b.position, n⟩, b') ∧ b'.buffer = b.buffer ∧
      b'.position = b.position + n :=
  ⟨_, dif_neg (Nat.not_lt.mpr fits), rfl, rfl⟩

theorem getData_append (fits : input.length ≤ b.remainingSpace) :
    (b.append input).2.getData = b.getData ++ input := by
  have length : (b.buffer.take b.position ++ input).length = b.position + input.length := by
    rw [List.length_append]
    exact congrArg (· + input.length) length_getData
  rw [append, dif_neg (Nat.not_lt.mpr fits)]
  exact List.take_left' length

theorem remainingSpace_append (fits : input.length ≤ b.remainingSpace) :
    (b.append input).2.remainingSpace = b.remainingSpace - input.length := by
  rw [remainingSpace_eq, getData_append fits, List.length_append, remainingSpace_eq, Nat.sub_sub]

end LoggingBuffer

/-! ## Numbers -/

section Digits

variable {size base value : Nat} {b : LoggingBuffer size}

theorem length_digits_le (one : 1 < base) (small : value < 2 ^ 64) :
    (Nat.digits base value).length ≤ 64 :=
  (Nat.digits_length_le_iff one value).mpr
    (Nat.lt_of_lt_of_le small (Nat.pow_le_pow_left one 64))

theorem foldlM_count : ∀ (digits : List Nat) (n : Nat), n + digits.length < 2 ^ 64 →
    digits.foldlM (fun numDigits _ => .ok (u64 (numDigits + 1))) n =
      (.ok (n + digits.length) : Except LogFault Nat)
  | [], _, _ => rfl
  | d :: digits, n, small => by
      rw [List.length_cons] at small ⊢
      rw [List.foldlM_cons, u64_of_lt (by omega), Outcome.ok_bind,
        foldlM_count digits (n + 1) (by omega)]
      congr 1
      omega

theorem countDigits_eq (one : 1 < base) (small : value < 2 ^ 64) :
    countDigits base value = .ok (Nat.digits base value).length := by
  have length := length_digits_le one small
  rw [countDigits, Numeral.loop_digits one (fun _ numDigits => .ok (u64 (numDigits + 1)))
    (by rw [digitBudget]; omega), foldlM_count _ 0 (by omega), Nat.zero_add]

/-- The step of the loop: the last byte of the part is written, and the part before it is left. -/
theorem store_last {range : OutputRange} {before part after : List (BitVec 8)} {old : BitVec 8}
    (byte : BitVec 8) (buffer : b.buffer = before ++ (part ++ [old]) ++ after)
    (start : range.start = before.length) (inside : part.length < range.size) :
    ∃ b' : LoggingBuffer size, b.store range part.length byte = .ok b' ∧
      b'.buffer = before ++ part ++ byte :: after ∧ b'.position = b.position := by
  refine ⟨_, if_pos inside, ?_, rfl⟩
  change b.buffer.set (range.start + part.length) byte = _
  rw [buffer, start, ← List.append_assoc, List.append_assoc, ← List.length_append,
    List.singleton_append]
  rw [List.set_append_right _ _ (Nat.le_refl _), Nat.sub_self, List.set_cons_zero]

/-- By induction on the digits that are left: they fill the part of the buffer that is still to be
written. -/
theorem foldlM_store (range : OutputRange) {before : List (BitVec 8)}
    (start : range.start = before.length) :
    ∀ (digits : List Nat) {part after : List (BitVec 8)} {currentDigit : Nat}
      {b : LoggingBuffer size}, b.buffer = before ++ part ++ after →
      part.length = digits.length → part.length ≤ range.size → part.length < 2 ^ 64 →
      (digits ≠ [] → currentDigit + 1 = part.length) →
      ∃ (last : Nat) (b' : LoggingBuffer size),
        digits.foldlM (fun s d => writeDigit range d s) (currentDigit, b) = .ok (last, b') ∧
        b'.buffer = before ++ (digits.map Numeral.symbol).reverse ++ after ∧
        b'.position = b.position
  | [], part, after, currentDigit, b, buffer, length, _, _, _ => by
      obtain rfl : part = [] := List.eq_nil_of_length_eq_zero length
      exact ⟨currentDigit, b, rfl, buffer, rfl⟩
  | d :: digits, part, after, currentDigit, b, buffer, length, inside, small, index => by
      obtain ⟨part, old, rfl⟩ : ∃ front old, part = front ++ [old] :=
        (List.eq_nil_or_concat' part).resolve_left fun empty => by simp [empty] at length
      simp only [List.length_append, List.length_cons, List.length_nil,
        Nat.zero_add] at length inside small index
      obtain rfl : currentDigit = part.length := Nat.succ.inj (index (List.cons_ne_nil d digits))
      have index' : digits ≠ [] → sub64 part.length 1 + 1 = part.length := by
        intro more
        have nonempty := List.length_pos_iff.mpr more
        rw [sub64_of_le (by omega) (by omega)]
        omega
      obtain ⟨b', stored, buffer', position⟩ :=
        store_last (Numeral.symbol d) buffer start (by omega)
      obtain ⟨last, b'', run, buffer'', position'⟩ :=
        foldlM_store range start digits buffer' (by omega) (by omega) (by omega) index'
      refine ⟨last, b'', ?_, ?_, position'.trans position⟩
      · rw [List.foldlM_cons, writeDigit, stored]
        exact run
      · rw [buffer'']
        simp

theorem IntegerBase.one_lt_value (format : IntegerBase) : 1 < format.value := by
  cases format <;> decide

theorem logU64_of_not_fits (format : IntegerBase) (small : value < 2 ^ 64)
    (full : b.remainingSpace < (Numeral.text format.value value).length) :
    b.logU64 value format = .ok b := by
  rw [LoggingBuffer.logU64]
  by_cases zero : value = 0
  · subst zero
    rw [Numeral.text_zero] at full
    rw [if_pos rfl, LoggingBuffer.append_of_lt full]
  · rw [Numeral.length_text_of_ne_zero zero] at full
    rw [if_neg zero, countDigits_eq format.one_lt_value small, Outcome.ok_bind,
      LoggingBuffer.reserve_of_lt full, if_pos rfl]

/-- What is reserved is filled with the digits. -/
theorem writeDigits_eq (one : 1 < base) (small : value < 2 ^ 64) (pos : value ≠ 0)
    (room : b.position + (Nat.digits base value).length ≤ size) {b' : LoggingBuffer size}
    (buffer : b'.buffer = b.buffer)
    (position : b'.position = b.position + (Nat.digits base value).length) :
    ∃ (last : Nat) (b'' : LoggingBuffer size),
      writeDigits base ⟨b.position, (Nat.digits base value).length⟩ value
        (sub64 (Nat.digits base value).length 1) b' = .ok (last, b'') ∧
      b''.getData = b.getData ++ Numeral.text base value := by
  have most := length_digits_le one small
  have least : 0 < (Nat.digits base value).length :=
    List.length_pos_iff.mpr (Nat.digits_ne_nil_iff_ne_zero.mpr pos)
  have split : b'.buffer = b.getData ++
      (b.buffer.drop b.position).take (Nat.digits base value).length ++
      b.buffer.drop (b.position + (Nat.digits base value).length) := by
    rw [buffer, List.append_assoc, ← List.drop_drop, List.take_append_drop,
      LoggingBuffer.getData, List.take_append_drop]
  have length : ((b.buffer.drop b.position).take (Nat.digits base value).length).length =
      (Nat.digits base value).length := by
    rw [List.length_take, List.length_drop, b.length_eq]
    omega
  have index : sub64 (Nat.digits base value).length 1 + 1 = (Nat.digits base value).length := by
    rw [sub64_of_le (by omega) least]
    omega
  obtain ⟨last, b'', run, buffer'', position''⟩ :=
    foldlM_store ⟨b.position, (Nat.digits base value).length⟩
      LoggingBuffer.length_getData.symm _ split length (Nat.le_of_eq length) (by omega)
      (fun _ => index.trans length.symm)
  refine ⟨last, b'', ?_, ?_⟩
  · rw [writeDigits, Numeral.loop_digits one (writeDigit _) (by rw [digitBudget]; omega), run]
  · rw [LoggingBuffer.getData, buffer'', ← Numeral.text_of_ne_zero pos, position'', position]
    apply List.take_left'
    rw [List.length_append, LoggingBuffer.length_getData, Numeral.length_text_of_ne_zero pos]

theorem logU64_of_fits (format : IntegerBase) (small : value < 2 ^ 64)
    (fits : (Numeral.text format.value value).length ≤ b.remainingSpace) :
    ∃ b', b.logU64 value format = .ok b' ∧
      b'.getData = b.getData ++ Numeral.text format.value value := by
  rw [LoggingBuffer.logU64]
  by_cases zero : value = 0
  · subst zero
    rw [Numeral.text_zero] at fits ⊢
    exact ⟨_, if_pos rfl, LoggingBuffer.getData_append fits⟩
  · rw [Numeral.length_text_of_ne_zero zero] at fits
    have room : b.position + (Nat.digits format.value value).length ≤ size := by
      have le := b.position_le
      rw [LoggingBuffer.remainingSpace] at fits
      omega
    obtain ⟨reserved, eq, buffer, position⟩ := LoggingBuffer.reserve_of_le fits
    obtain ⟨last, b', written, data⟩ :=
      writeDigits_eq format.one_lt_value small zero room buffer position
    refine ⟨b', ?_, data⟩
    rw [if_neg zero, countDigits_eq format.one_lt_value small, Outcome.ok_bind, eq, if_neg, written]
    · rfl
    · intro empty
      exact zero (Nat.digits_eq_nil_iff_eq_zero.mp (List.eq_nil_of_length_eq_zero empty))

end Digits

/-! ## Entries -/

/-- What an item adds to an entry that has some room left: as much of a string as fits, and a
number unless there is less room than for the longest one. -/
def LogItem.Contributes (room : Nat) (t : List (BitVec 8)) : LogItem → Prop
  | string value => t = value.bytes.take room
  | pointer value =>
      if room < 18 then t = []
      else ∃ numeral, t = LoggingBuffer.hexPrefix ++ numeral ∧
        Numeral.Canonical 16 value.toNat numeral
  | unsigned _ _ value => if room < 20 then t = [] else Numeral.Canonical 10 value.toNat t

/-- The text of an entry, from its items only. -/
inductive EntryText (size : Nat) : List LogItem → List (BitVec 8) → Prop
  | nil : EntryText size [] []
  | snoc {items : List LogItem} {item : LogItem} {text t : List (BitVec 8)} :
      EntryText size items text → item.Contributes (size - text.length) t →
      EntryText size (items ++ [item]) (text ++ t)

section Entries

variable {size : Nat} {b : LoggingBuffer size} (arith : Arithmetic (Except LogFault))

theorem insertString_eq (value : CString) :
    (b.insertString value).getData = b.getData ++ value.bytes.take b.remainingSpace := by
  have cut : value.bytes.take
      (if b.remainingSpace < value.strlen then b.remainingSpace else value.strlen) =
        value.bytes.take b.remainingSpace := by
    split
    case isTrue => rfl
    case isFalse fits =>
        rw [CString.strlen] at fits ⊢
        rw [List.take_length, List.take_of_length_le (Nat.not_lt.mp fits)]
  rw [LoggingBuffer.insertString, cut]
  exact LoggingBuffer.getData_append (List.length_take_le _ _)

/-- A number that has no more digits than there is room for. -/
theorem logU64_of_le (format : IntegerBase) {value k : Nat} (small : value < 2 ^ 64) (pos : 0 < k)
    (digits : 2 ^ 64 ≤ format.value ^ k) (room : k ≤ b.remainingSpace) :
    ∃ b', b.logU64 value format = .ok b' ∧
      b'.getData = b.getData ++ Numeral.text format.value value :=
  logU64_of_fits format small (Nat.le_trans
    (Numeral.length_text_le format.one_lt_value pos (Nat.lt_of_lt_of_le small digits)) room)

theorem insertPointer_eq (value : BitVec 64) (room : 18 ≤ b.remainingSpace) :
    ∃ b', b.insertPointer value = .ok b' ∧
      b'.getData = b.getData ++ (LoggingBuffer.hexPrefix ++ Numeral.text 16 value.toNat) := by
  have first : LoggingBuffer.hexPrefix.length ≤ b.remainingSpace :=
    Nat.le_trans (by decide) room
  have rest : 16 ≤ (b.append LoggingBuffer.hexPrefix).2.remainingSpace := by
    rw [LoggingBuffer.remainingSpace_append first]
    exact Nat.sub_le_sub_right room 2
  obtain ⟨b', run, data⟩ := logU64_of_le .hex value.isLt (by decide) (by decide) rest
  refine ⟨b', (if_neg (Nat.not_lt.mpr room)).trans run, ?_⟩
  rw [data, LoggingBuffer.getData_append first, List.append_assoc]
  rfl

theorem insertUnsigned_eq {w : Nat} (fits : w ≤ 64) (value : BitVec w)
    (room : 20 ≤ b.remainingSpace) :
    ∃ b', b.insertUnsigned value = .ok b' ∧
      b'.getData = b.getData ++ Numeral.text 10 value.toNat := by
  have widened : (value.setWidth 64).toNat = value.toNat := by
    rw [BitVec.toNat_setWidth, Nat.mod_eq_of_lt]
    exact Nat.lt_of_lt_of_le value.isLt (Nat.pow_le_pow_right (by decide) fits)
  obtain ⟨b', run, data⟩ :=
    logU64_of_le .decimal (value.setWidth 64).isLt (by decide) (by decide) room
  refine ⟨b', (if_neg (Nat.not_lt.mpr room)).trans run, ?_⟩
  rw [data, widened]
  rfl

/-- One insertion appends what the item contributes. -/
theorem LogItem.insert_eq (item : LogItem) (b : LoggingBuffer size) :
    ∃ b' t, item.insert b = .ok b' ∧ b'.getData = b.getData ++ t ∧
      item.Contributes (size - b.getData.length) t := by
  rw [← LoggingBuffer.remainingSpace_eq]
  cases item with
  | string value => exact ⟨_, _, rfl, insertString_eq value, rfl⟩
  | pointer value =>
      by_cases full : b.remainingSpace < 18
      · exact ⟨b, [], if_pos full, (List.append_nil _).symm, by rw [Contributes, if_pos full]⟩
      · obtain ⟨b', run, data⟩ := insertPointer_eq value (Nat.not_lt.mp full)
        refine ⟨b', _, run, data, ?_⟩
        rw [Contributes, if_neg full]
        exact ⟨_, rfl, Numeral.canonical_text (by decide) (by decide) _⟩
  | unsigned w fits value =>
      by_cases full : b.remainingSpace < 20
      · exact ⟨b, [], if_pos full, (List.append_nil _).symm, by rw [Contributes, if_pos full]⟩
      · obtain ⟨b', run, data⟩ := insertUnsigned_eq fits value (Nat.not_lt.mp full)
        refine ⟨b', _, run, data, ?_⟩
        rw [Contributes, if_neg full]
        exact Numeral.canonical_text (by decide) (by decide) _

theorem insertAll_append (first rest : List LogInsertion) (b : LoggingBuffer size) :
    insertAll arith (first ++ rest) b = insertAll arith first b >>= insertAll arith rest :=
  List.foldlM_append

/-- The items of one entry, after some that are in the buffer already. -/
theorem insertAll_items (items : List LogItem) {before : List LogItem}
    (start : EntryText size before b.getData) :
    ∃ b' : LoggingBuffer size, insertAll arith (items.map .item) b = ⟨[], .ok b'⟩ ∧
      EntryText size (before ++ items) b'.getData := by
  induction items generalizing b before with
  | nil => exact ⟨b, rfl, by rwa [List.append_nil]⟩
  | cons item items ih =>
      obtain ⟨b', t, run, data, contributes⟩ := item.insert_eq b
      obtain ⟨b'', rest, text⟩ := ih (data ▸ start.snoc contributes)
      refine ⟨b'', ?_, ?_⟩
      · rw [List.map_cons, ← List.singleton_append, insertAll_append]
        have one : insertAll arith [.item item] b = ⟨[], .ok b'⟩ := by
          change Logged.bind ⟨[], item.insert b⟩ pure = _
          rw [run]
          rfl
        rw [one, Logged.bind_of_ok rfl, rest]
        rfl
      · rwa [List.append_assoc] at text

/-- The insertions of one entry with its end. -/
def entryInsertions (items : List LogItem) : List LogInsertion := items.map .item ++ [.endl]

/-- An entry that starts with an empty buffer is put out and leaves an empty buffer. -/
theorem insertAll_entry (items : List LogItem) (empty : b.getData = []) :
    ∃ (b' : LoggingBuffer size) (output : List (BitVec 8)),
      insertAll arith (entryInsertions items) b = ⟨[output], .ok b'⟩ ∧ b'.getData = [] ∧
      EntryText size items output ∧ output.length ≤ size := by
  obtain ⟨full, run, text⟩ := insertAll_items arith items (empty ▸ EntryText.nil)
  refine ⟨full.reset, full.getData, ?_, rfl, text, ?_⟩
  · rw [entryInsertions, insertAll_append, run, Logged.bind_of_ok rfl]
    rfl
  · rw [LoggingBuffer.length_getData]
    exact full.position_le

theorem insertAll_entries (entries : List (List LogItem)) (empty : b.getData = []) :
    ∃ (b' : LoggingBuffer size) (outputs : List (List (BitVec 8))),
      insertAll arith (entries.flatMap entryInsertions) b = ⟨outputs, .ok b'⟩ ∧
      b'.getData = [] ∧ List.Forall₂ (EntryText size) entries outputs ∧
      ∀ output ∈ outputs, output.length ≤ size := by
  induction entries generalizing b with
  | nil => exact ⟨b, [], rfl, empty, .nil, fun _ mem => absurd mem List.not_mem_nil⟩
  | cons items entries ih =>
      obtain ⟨b', output, run, empty', text, short⟩ := insertAll_entry arith items empty
      obtain ⟨b'', outputs, rest, empty'', texts, shorts⟩ := ih empty'
      refine ⟨b'', output :: outputs, ?_, empty'', .cons text texts,
        List.forall_mem_cons.mpr ⟨short, shorts⟩⟩
      rw [List.flatMap_cons, insertAll_append, run, Logged.bind_of_ok rfl, rest]
      rfl

/-- Every entry is the text of its own items, and it fits into the buffer. What is inserted after
the last end of a line is not put out. -/
theorem log_entries_faithful (size : Nat) (arith : Arithmetic (Except LogFault))
    (entries : List (List LogItem)) (rest : List LogItem) :
    ∃ (b : LoggingBuffer size) (outputs : List (List (BitVec 8))),
      insertAll arith (entries.flatMap entryInsertions ++ rest.map .item)
        (LoggingBuffer.initial size) = ⟨outputs, .ok b⟩ ∧
      List.Forall₂ (EntryText size) entries outputs ∧
      ∀ output ∈ outputs, output.length ≤ size := by
  obtain ⟨b, outputs, run, empty, texts, shorts⟩ :=
    insertAll_entries arith (b := .initial size) entries rfl
  obtain ⟨b', more, _⟩ := insertAll_items arith rest (empty ▸ EntryText.nil)
  refine ⟨b', outputs, ?_, texts, shorts⟩
  rw [insertAll_append, run, Logged.bind_of_ok rfl, more]
  exact congrArg (Logged.mk · _) (List.append_nil outputs)

end Entries

/-! ## Signed integers -/

/-- The results wrap, as the machine computes them. -/
def machineArith : Arithmetic (Except LogFault) := Arithmetic.wrapping.map fun x => .ok x.run

/-- A signed overflow is undefined. -/
def trappingArith : Arithmetic (Except LogFault) :=
  Arithmetic.checked.map fun x => x.elim (.error .signedOverflow) .ok

/-- The decimal text of an integer. -/
def IsDecimal (z : Int) (t : List (BitVec 8)) : Prop :=
  if z < 0 then ∃ numeral, t = minusSign ++ numeral ∧ Numeral.Canonical 10 z.natAbs numeral
  else Numeral.Canonical 10 z.natAbs t

/-- The insertion appends the decimal text of the value. -/
def LogsSigned {size : Nat} (arith : Arithmetic (Except LogFault)) (b : LoggingBuffer size)
    (w : SignedWidth) (value : BitVec w.bits) : Prop :=
  ∃ b' t, b.insertSigned arith w value = .ok b' ∧ b'.getData = b.getData ++ t ∧
    IsDecimal value.toInt t

theorem machineArith_exact : machineArith.Exact := Arithmetic.wrapping_exact.map fun _ => rfl

theorem trappingArith_exact : trappingArith.Exact := Arithmetic.checked_exact.map fun _ => rfl

section Signed

variable {size : Nat} {b : LoggingBuffer size} {w : SignedWidth} {value : BitVec w.bits}
  {arith : Arithmetic (Except LogFault)} {negated : Int}

theorem castU64_of_nonneg {z : Int} (pos : 0 ≤ z) (lt : z < 2 ^ 64) : castU64 z = z.natAbs := by
  rw [castU64, Int.emod_eq_of_lt pos lt]
  omega

theorem castU64_lt (z : Int) : castU64 z < 2 ^ 64 := by
  rw [castU64]
  omega

theorem SignedWidth.half_le (w : SignedWidth) : (2 : Int) ^ (w.bits - 1) ≤ 2 ^ 63 := by
  cases w <;> decide

theorem SignedWidth.half_lt_of_narrow :
    ∀ w : SignedWidth, w.bits < 32 → (2 : Int) ^ (w.bits - 1) < 2 ^ 31 := by
  intro w
  cases w <;> decide

theorem neg_half_le (value : BitVec w.bits) : -2 ^ 63 ≤ value.toInt :=
  Int.le_trans (Int.neg_le_neg w.half_le) (BitVec.le_toInt value)

theorem logsSigned_of_nonneg (room : 20 ≤ b.remainingSpace) (pos : 0 ≤ value.toInt) :
    LogsSigned arith b w value := by
  have lt : value.toInt < 2 ^ 64 :=
    Int.lt_trans (Int.lt_of_lt_of_le BitVec.toInt_lt w.half_le) (by decide)
  obtain ⟨b', run, data⟩ :=
    logU64_of_le .decimal (castU64_lt value.toInt) (by decide) (by decide) room
  refine ⟨b', _, ?_, data, ?_⟩
  · rw [LoggingBuffer.insertSigned, if_neg (Nat.not_lt.mpr room), if_pos pos, run]
  · rw [IsDecimal, if_neg (Int.not_lt.mpr pos), castU64_of_nonneg pos lt]
    exact Numeral.canonical_text (by decide) (by decide) _

theorem insertSigned_of_neg (room : 20 ≤ b.remainingSpace) (neg : value.toInt < 0) :
    b.insertSigned arith w value = arith.signed w.promotedBits (-value.toInt) >>= fun negated =>
      (b.append minusSign).2.logU64 (castU64 negated) .decimal := by
  rw [LoggingBuffer.insertSigned, if_neg (Nat.not_lt.mpr room), if_neg (Int.not_le.mpr neg)]

theorem getData_minusSign (room : 20 ≤ b.remainingSpace) :
    (b.append minusSign).2.getData = b.getData ++ minusSign :=
  LoggingBuffer.getData_append (Nat.le_trans (by decide) room)

/-- The text is right if the converted result of the negation is. Its digits fit beside the sign,
since the absolute value has at most 19. -/
theorem logsSigned_of_negated (room : 20 ≤ b.remainingSpace) (neg : value.toInt < 0)
    (result : arith.signed w.promotedBits (-value.toInt) = .ok negated)
    (cast : castU64 negated = value.toInt.natAbs) : LogsSigned arith b w value := by
  have low := neg_half_le value
  have rest : 19 ≤ (b.append minusSign).2.remainingSpace := by
    rw [LoggingBuffer.remainingSpace_append (Nat.le_trans (by decide) room)]
    exact Nat.sub_le_sub_right room 1
  have digits : (Numeral.text 10 value.toInt.natAbs).length ≤ 19 :=
    Numeral.length_text_le (by decide) (by decide) (by omega)
  obtain ⟨b', run, data⟩ :=
    logU64_of_fits .decimal (show value.toInt.natAbs < 2 ^ 64 by omega) (Nat.le_trans digits rest)
  rw [getData_minusSign room, List.append_assoc] at data
  refine ⟨b', _, ?_, data, ?_⟩
  · rw [insertSigned_of_neg room neg, result, Outcome.ok_bind, cast, run]
  · rw [IsDecimal, if_pos neg]
    exact ⟨_, rfl, Numeral.canonical_text (by decide) (by decide) _⟩

/-- A wrong result of the negation is seen in the text. -/
theorem not_logsSigned_of_negated (room : 20 ≤ b.remainingSpace) (neg : value.toInt < 0)
    (result : arith.signed w.promotedBits (-value.toInt) = .ok negated)
    (cast : castU64 negated ≠ value.toInt.natAbs) : ¬ LogsSigned arith b w value := by
  rintro ⟨b', t, run, data, decimal⟩
  rw [IsDecimal, if_pos neg] at decimal
  obtain ⟨numeral, rfl, canonical⟩ := decimal
  rw [insertSigned_of_neg room neg, result, Outcome.ok_bind] at run
  rw [← List.append_assoc, ← getData_minusSign room] at data
  by_cases full : (b.append minusSign).2.remainingSpace <
      (Numeral.text IntegerBase.decimal.value (castU64 negated)).length
  · rw [logU64_of_not_fits .decimal (castU64_lt negated) full] at run
    cases run
    exact canonical.ne_nil (List.self_eq_append_right.mp data)
  · obtain ⟨b'', run', data'⟩ :=
      logU64_of_fits .decimal (castU64_lt negated) (Nat.not_lt.mp full)
    rw [run'] at run
    cases run
    rw [data'] at data
    rw [← List.append_cancel_left data] at canonical
    exact cast ((Numeral.canonical_text (by decide) (by decide) _).unique canonical)

/-- The negation has its exact result unless the value is the minimum of a type that is not
promoted. -/
theorem neg_lt_iff (value : BitVec w.bits) :
    -value.toInt < 2 ^ (w.promotedBits - 1) ↔
      ¬ (32 ≤ w.bits ∧ value.toInt = -2 ^ (w.bits - 1)) := by
  have low : -2 ^ (w.bits - 1) ≤ value.toInt := BitVec.le_toInt value
  by_cases wide : 32 ≤ w.bits
  · rw [SignedWidth.promotedBits, Nat.max_eq_left wide]
    omega
  · have half := w.half_lt_of_narrow (Nat.not_le.mp wide)
    rw [SignedWidth.promotedBits, Nat.max_eq_right (Nat.le_of_not_le wide)]
    change _ < (2 : Int) ^ 31 ↔ _
    omega

theorem logsSigned_of_exact (exact : arith.Exact) (room : 20 ≤ b.remainingSpace)
    (fits : -value.toInt < 2 ^ (w.promotedBits - 1)) : LogsSigned arith b w value := by
  by_cases pos : 0 ≤ value.toInt
  · exact logsSigned_of_nonneg room pos
  · have neg : value.toInt < 0 := Int.not_le.mp pos
    have low := neg_half_le value
    have promoted : 0 < w.promotedBits := Nat.lt_of_lt_of_le (by decide) (Nat.le_max_right _ _)
    have result := exact.signed promoted
      (Int.le_trans (Int.neg_nonpos_of_nonneg (Int.le_of_lt (Int.pow_pos (by decide))))
        (by omega : 0 ≤ -value.toInt)) fits
    refine logsSigned_of_negated room neg result ?_
    rw [castU64_of_nonneg (by omega) (by omega), Int.natAbs_neg]

theorem not_logsSigned_trapping (room : 20 ≤ b.remainingSpace)
    (out : ¬ -value.toInt < 2 ^ (w.promotedBits - 1)) :
    ¬ LogsSigned trappingArith b w value := by
  have neg : value.toInt < 0 := by
    have half : (0 : Int) < 2 ^ (w.promotedBits - 1) := Int.pow_pos (by decide)
    omega
  rintro ⟨b', t, run, _⟩
  have trapped : trappingArith.signed w.promotedBits (-value.toInt) = .error .signedOverflow := by
    change (Option.elim (if _ then _ else _) _ _) = _
    rw [if_neg fun range => out range.2]
    rfl
  rw [insertSigned_of_neg room neg, trapped] at run
  cases run

/-- The wrapped negation of the minimum is the minimum, whose conversion is the absolute value for
64 bits only. -/
theorem logsSigned_machine_iff (room : 20 ≤ b.remainingSpace) :
    LogsSigned machineArith b w value ↔ ¬ (w.bits = 32 ∧ value.toInt = -2 ^ 31) := by
  by_cases fits : -value.toInt < 2 ^ (w.promotedBits - 1)
  · refine iff_of_true (logsSigned_of_exact machineArith_exact room fits) ?_
    rintro ⟨bits, least⟩
    exact (neg_lt_iff value).mp fits ⟨Nat.le_of_eq bits.symm, by rw [least, bits]⟩
  · obtain ⟨wide, least⟩ := not_not.mp fun other => fits ((neg_lt_iff value).mpr other)
    cases w with
    | w8 => exact absurd wide (by decide)
    | w16 => exact absurd wide (by decide)
    | w32 =>
        replace least : value.toInt = -2 ^ 31 := least
        have result : machineArith.signed 32 (-value.toInt) = .ok (-2 ^ 31) := by
          rw [least]
          rfl
        refine iff_of_false (not_logsSigned_of_negated room ?_ result ?_) fun other =>
          other ⟨rfl, least⟩
        · rw [least]
          decide
        · rw [least]
          decide
    | w64 =>
        replace least : value.toInt = -2 ^ 63 := least
        have result : machineArith.signed 64 (-value.toInt) = .ok (-2 ^ 63) := by
          rw [least]
          rfl
        refine iff_of_true (logsSigned_of_negated room ?_ result ?_) fun other =>
          absurd other.1 (by decide)
        · rw [least]
          decide
        · rw [least]
          decide

/-- Signed integers are logged as they should be unless the value is the minimum of a type of at
least 32 bits, for which the negation overflows; with 32 bits the text is then wrong, too. -/
theorem signed_logged_iff {size : Nat} (b : LoggingBuffer size) (room : 20 ≤ b.remainingSpace)
    (w : SignedWidth) (value : BitVec w.bits) :
    ((LogsSigned machineArith b w value ∧ LogsSigned trappingArith b w value) ↔
      ¬ (32 ≤ w.bits ∧ value.toInt = -2 ^ (w.bits - 1))) ∧
    (LogsSigned machineArith b w value ↔ ¬ (w.bits = 32 ∧ value.toInt = -2 ^ 31)) := by
  refine ⟨?_, logsSigned_machine_iff room⟩
  rw [← neg_lt_iff]
  constructor
  · rintro ⟨_, defined⟩
    by_contra out
    exact not_logsSigned_trapping room out defined
  · intro fits
    exact ⟨logsSigned_of_exact machineArith_exact room fits,
      logsSigned_of_exact trappingArith_exact room fits⟩

/-- With room for one byte more than required. -/
def freshLog : LoggingBuffer 21 := .initial 21

theorem signed_logged_thousand :
    LogsSigned machineArith freshLog .w32 (BitVec.ofInt 32 (-1000)) ∧
      LogsSigned trappingArith freshLog .w32 (BitVec.ofInt 32 (-1000)) :=
  (signed_logged_iff freshLog (by decide) .w32 (BitVec.ofInt 32 (-1000))).1.mpr (by decide)

/-- The minimum of `int` is logged as `-18446744071562067968`, and the negation overflows. -/
theorem signed_minimum_wrong :
    (freshLog.insertSigned machineArith .w32 0x80000000#32).map LoggingBuffer.getData =
      .ok (minusSign ++ Numeral.text 10 18446744071562067968) ∧
    (freshLog.insertSigned trappingArith .w32 0x80000000#32).map LoggingBuffer.getData =
      .error .signedOverflow ∧
    (freshLog.insertSigned trappingArith .w64 0x8000000000000000#64).map LoggingBuffer.getData =
      .error .signedOverflow ∧
    (0x80000000#32).toInt = -2147483648 := by
  refine ⟨?_, ?_, ?_, ?_⟩
  · decide
  · decide
  · decide
  · decide

end Signed

end Monza
