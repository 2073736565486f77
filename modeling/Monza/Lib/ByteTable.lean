import Mathlib.Data.List.Induction
import Monza.Lib.ByteMemory

/-!
# Tables of records in memory

A table is a run of records of the same size. Read as a function from numbers to records, a store of
a whole record updates the function at one place, and a store of one byte updates the record. After
a sequence of updates, the last one at each place counts.
-/

namespace Function

variable {κ α : Type*} [DecidableEq κ]

/-- Update a function at the keys of a list, from its head on. -/
def updates (f : κ → α) (list : List (κ × α)) : κ → α :=
  list.foldl (fun f u => update f u.1 u.2) f

theorem updates_apply (list : List (κ × α)) (f : κ → α) (k : κ) :
    updates f list k = (list.reverse.lookup k).getD (f k) := by
  induction list using List.reverseRecOn with
  | nil => rfl
  | append_singleton list last ih =>
      rw [updates, List.foldl_append, List.foldl_cons, List.foldl_nil, List.reverse_append,
        List.reverse_singleton, List.singleton_append, List.lookup_cons]
      by_cases same : k = last.1
      · subst same
        simp
      · rw [update_of_ne same, beq_eq_false_iff_ne.mpr same]
        exact ih

end Function

namespace ByteMemory

variable {m m' : Memory} {address base size i j offset x : Nat} {value : UInt8} {bytes : Bytes}

/-- The records of a table. -/
def slot (m : Memory) (base size i : Nat) : Bytes := load m (base + size * i) size

@[simp] theorem length_load (m : Memory) (address size : Nat) :
    (load m address size).length = size := by
  rw [load, List.length_map, List.length_range]

theorem load_add (m : Memory) (address p q : Nat) :
    load m address (p + q) = load m address p ++ load m (address + p) q := by
  simp only [load, List.range_add, List.map_append, List.map_map, Function.comp_def, Nat.add_assoc]

theorem slice_load {length : Nat} (inside : offset + length ≤ size) :
    Bytes.slice offset length (load m address size) = load m (address + offset) length := by
  obtain ⟨rest, rfl⟩ := Nat.exists_eq_add_of_le inside
  rw [Nat.add_assoc, load_add, Bytes.slice_append_right (by simp), length_load, Nat.sub_self,
    load_add, Bytes.slice_append_left (by simp)]
  have whole := Bytes.slice_zero_length (load m (address + offset) length)
  rwa [length_load] at whole

theorem load_congr (same : ∀ x < size, m (address + x) = m' (address + x)) :
    load m address size = load m' address size :=
  List.map_congr_left fun x inside => same x (List.mem_range.mp inside)

theorem load_store_whole (whole : bytes.length = size) :
    load (store m address bytes) address size = bytes := by
  rw [← whole, load_store]

theorem load_store_above {destination : Nat} (above : address + size ≤ destination) :
    load (store m destination bytes) address size = load m address size :=
  load_congr fun x inside => store_outside (.inl (by omega))

/-- Different records have no byte in common. -/
theorem slots_apart (ne : j ≠ i) (inside : x < size) :
    base + size * j + x < base + size * i ∨ base + size * i + size ≤ base + size * j + x := by
  obtain less | more := Nat.lt_or_gt_of_ne ne
  · have := Nat.mul_le_mul_left size (Nat.succ_le_of_lt less)
    rw [Nat.mul_succ] at this
    omega
  · have := Nat.mul_le_mul_left size (Nat.succ_le_of_lt more)
    rw [Nat.mul_succ] at this
    omega

theorem slot_store (whole : bytes.length = size) :
    slot (store m (base + size * i) bytes) base size =
      Function.update (slot m base size) i bytes := by
  funext j
  by_cases same : j = i
  · subst same
    rw [Function.update_self, slot, load_store_whole whole]
  · rw [Function.update_of_ne same]
    refine load_congr fun x inside => store_outside ?_
    rw [whole]
    exact slots_apart same inside

/-- A byte that is stored inside of the bytes from an address on. -/
theorem load_store_byte :
    load (store m (address + offset) [value]) address size =
      (load m address size).set offset value := by
  apply List.ext_getElem
  · simp
  · intro x before _
    simp only [load, List.getElem_map, List.getElem_range, List.getElem_set]
    by_cases same : offset = x
    · subst same
      simp [store]
    · rw [if_neg same]
      exact store_outside (by simp only [List.length_singleton]; omega)

theorem slot_store_byte (inside : offset < size) :
    slot (store m (base + size * i + offset) [value]) base size =
      Function.update (slot m base size) i ((slot m base size i).set offset value) := by
  funext j
  by_cases same : j = i
  · subst same
    rw [Function.update_self, slot, load_store_byte, slot]
  · rw [Function.update_of_ne same]
    refine load_congr fun x within => store_outside ?_
    have apart : base + size * j + x < base + size * i ∨
        base + size * i + size ≤ base + size * j + x := slots_apart same within
    simp only [List.length_singleton]
    omega

end ByteMemory
