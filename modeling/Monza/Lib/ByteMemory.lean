import Monza.Lib.Bytes

/-!
# Memory as a function of addresses

Copying, filling and storing bytes, each described by the bytes inside the range it writes and by
the rest, which it leaves as it is. A copy reads all its bytes before it writes.
-/

namespace ByteMemory

/-- The byte at every address. -/
abbrev Memory := Nat → UInt8

def copy (m : Memory) (destination source size : Nat) : Memory :=
  fun a => if destination ≤ a ∧ a < destination + size then m (source + (a - destination)) else m a

def fill (m : Memory) (address : Nat) (value : UInt8) (size : Nat) : Memory :=
  fun a => if address ≤ a ∧ a < address + size then value else m a

def store (m : Memory) (address : Nat) (bytes : Bytes) : Memory :=
  fun a => if address ≤ a then (bytes[a - address]?).getD (m a) else m a

/-- The bytes from an address on. -/
def load (m : Memory) (address size : Nat) : Bytes :=
  (List.range size).map fun i => m (address + i)

variable {m : Memory} {address source size x a : Nat} {value : UInt8} {bytes more : Bytes}

theorem copy_inside (inside : x < size) : copy m address source size (address + x) =
    m (source + x) := by
  rw [copy, if_pos ⟨Nat.le_add_right _ _, Nat.add_lt_add_left inside _⟩, Nat.add_sub_cancel_left]

theorem copy_outside (outside : a < address ∨ address + size ≤ a) :
    copy m address source size a = m a := by
  rw [copy, if_neg (by omega)]

theorem fill_inside (inside : x < size) : fill m address value size (address + x) = value := by
  rw [fill, if_pos ⟨Nat.le_add_right _ _, Nat.add_lt_add_left inside _⟩]

theorem fill_outside (outside : a < address ∨ address + size ≤ a) :
    fill m address value size a = m a := by
  rw [fill, if_neg (by omega)]

theorem store_outside (outside : a < address ∨ address + bytes.length ≤ a) :
    store m address bytes a = m a := by
  rw [store]
  split
  next le => rw [List.getElem?_eq_none (by omega), Option.getD_none]
  next => rfl

/-- Bytes that are stored behind each other are stored as one. -/
theorem store_store {next : Nat} (behind : next = address + bytes.length) :
    store (store m address bytes) next more = store m address (bytes ++ more) := by
  subst behind
  funext a
  simp only [store]
  by_cases behind : address + bytes.length ≤ a
  · have skip : a - address - bytes.length = a - (address + bytes.length) := by omega
    rw [if_pos behind, if_pos (Nat.le_trans (Nat.le_add_right _ _) behind),
      List.getElem?_append_right (by omega), skip, List.getElem?_eq_none (l := bytes) (by omega),
      Option.getD_none, if_pos (Nat.le_trans (Nat.le_add_right _ _) behind)]
  · rw [if_neg behind]
    split
    next le => rw [List.getElem?_append_left (by omega)]
    next => rfl

theorem load_store : load (store m address bytes) address bytes.length = bytes := by
  apply List.ext_getElem
  · rw [load, List.length_map, List.length_range]
  · intro i _ inside
    simp [load, store, inside]

end ByteMemory
