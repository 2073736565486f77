import Monza.Boot.Idt
import Monza.HeapGeneric

/-!
# The memory map on its way from the bootloader to the kernel

The bootloader leaves a table of ranges in entries of 32 bytes, up to one whose size is zero. The
code it jumps to copies the first 20 bytes of each to the page that the kernel gets as its zero
page, and counts them in an 8-bit register. `setup_heap_generic` reads as many entries as were
counted.

The code then puts a gate into the interrupt table of the bootloader, through which the other cores
are started later, and goes on where this gate leads: to the kernel, with the number of the core and
the address of the zero page.
-/

namespace Monza

open ByteMemory

def E820Entry.encode (e : E820Entry) : Bytes :=
  Bytes.le 8 e.addr.toNat ++ (Bytes.le 8 e.size.toNat ++ Bytes.le 4 e.type.toNat)

/-- The packed structure of the kernel. -/
def E820Entry.decode (bytes : Bytes) : E820Entry where
  addr := BitVec.ofNat 64 (Bytes.ofLe (Bytes.slice 0 8 bytes))
  size := BitVec.ofNat 64 (Bytes.ofLe (Bytes.slice 8 8 bytes))
  type := BitVec.ofNat 32 (Bytes.ofLe (Bytes.slice 16 4 bytes))

namespace E820

def bootloaderEntries : Nat := 0x6000
def zeroPage : Nat := 0x101000
def entriesOffset : Nat := 0x1e8
def tableOffset : Nat := 0x2d0
def bootloaderLocalApicAddress : Nat := 0x5A28
def kernelStart : Nat := 0x600000

/-- Where the stub keeps its variable `idtr`, and the label behind which it goes on. -/
structure Stub where
  idtr : Nat
  kernelApStart : Nat

/-- What the kernel is started with. -/
structure Handover where
  memory : Memory
  rdi : Nat
  rsi : Nat
  rip : Nat

/-- `.read_e820_entry` to `.end_e820`. -/
def readEntry : Nat → Nat → Nat → UInt8 → Memory → Result Memory
  | 0, _, _, _, _ => .error .diverge
  | fuel + 1, rsi, rdi, cl, m =>
      let rax := Bytes.ofLe (load m rsi 8)
      let rbx := Bytes.ofLe (load m (rsi + 8) 8)
      let edx := Bytes.ofLe (load m (rsi + 16) 4)
      if rbx = 0 then .ok (store m (zeroPage + entriesOffset) [cl])
      else
        let m := store m rdi (Bytes.le 8 rax)
        let m := store m (rdi + 8) (Bytes.le 8 rbx)
        let m := store m (rdi + 16) (Bytes.le 4 edx)
        readEntry fuel (rsi + 32) (rdi + 20) (cl + 1) m

/-- `sidt` and the stores to the gate of vector `0x81`. -/
def installApGate (S : Stub) (register : Idt.TableRegister) (m : Memory) : Memory :=
  let m := store m S.idtr (Bytes.le 2 register.limit ++ Bytes.le 8 register.base)
  let rdi := u64 (Bytes.ofLe (load m (S.idtr + 2) 8) + 0x81 * 16)
  let rax := S.kernelApStart
  let m := store m rdi (Bytes.le 2 rax)
  let m := store m (u64 (rdi + 2)) (Bytes.le 2 8)
  let m := store m (u64 (rdi + 4)) (Bytes.le 1 0)
  let m := store m (u64 (rdi + 5)) (Bytes.le 1 0x8e)
  let rax := rax / 2 ^ 16
  let m := store m (u64 (rdi + 6)) (Bytes.le 2 rax)
  let rax := rax / 2 ^ 16
  let m := store m (u64 (rdi + 8)) (Bytes.le 4 rax)
  store m (u64 (rdi + 12)) (Bytes.le 4 0)

/-- `.KernelAPStart`, where every core gets to. -/
def kernelApStart (m : Memory) : Handover :=
  let rax := Bytes.ofLe (load m bootloaderLocalApicAddress 8)
  let eax := Bytes.ofLe (load m (u64 (rax + 0x20)) 4)
  { memory := m, rdi := eax / 2 ^ 24, rsi := zeroPage, rip := kernelStart }

@[simp] theorem kernelApStart_memory (m : Memory) : (kernelApStart m).memory = m := rfl

@[simp] theorem kernelApStart_rsi (m : Memory) : (kernelApStart m).rsi = zeroPage := rfl

/-- `stage0_start` on the first core. -/
def stage0Start (fuel : Nat) (S : Stub) (register : Idt.TableRegister) (m : Memory) :
    Result Handover := do
  let m ← readEntry fuel bootloaderEntries (zeroPage + tableOffset) 0 m
  .ok (kernelApStart (installApGate S register m))

/-- The span `e820_table` of `setup_heap_generic`. -/
def table (kernelZeroPage : Nat) (m : Memory) : List E820Entry :=
  (List.range (m (kernelZeroPage + entriesOffset)).toNat).map fun i =>
    E820Entry.decode (slot m (kernelZeroPage + tableOffset) 20 i)

/-- The bootloader has left these entries at an address. -/
structure Left (m : Memory) (address : Nat) (entries : List E820Entry) : Prop where
  stored : ∀ i, (h : i < entries.length) → load m (address + 32 * i) 20 = entries[i].encode
  sized : ∀ e ∈ entries, e.size ≠ 0
  ended : Bytes.ofLe (load m (address + 32 * entries.length + 8) 8) = 0

/-- The entries have been copied to an address, and nothing else has changed. -/
structure Copied (m after : Memory) (address : Nat) (entries : List E820Entry) : Prop where
  copied : ∀ i, (h : i < entries.length) → slot after address 20 i = entries[i].encode
  outside : ∀ a, a < address ∨ address + 20 * entries.length ≤ a → after a = m a

variable {m after : Memory} {rsi rdi : Nat} {e : E820Entry}
variable {entries : List E820Entry}

/-! ### One entry -/

theorem slice_addr (e : E820Entry) : Bytes.slice 0 8 e.encode = Bytes.le 8 e.addr.toNat := by
  rw [E820Entry.encode, Bytes.slice_append_left (by simp)]
  rfl

theorem slice_size (e : E820Entry) : Bytes.slice 8 8 e.encode = Bytes.le 8 e.size.toNat := by
  rw [E820Entry.encode, Bytes.slice_append_right (by simp), Bytes.slice_append_left (by simp)]
  rfl

theorem slice_type (e : E820Entry) : Bytes.slice 16 4 e.encode = Bytes.le 4 e.type.toNat := by
  rw [E820Entry.encode, Bytes.slice_append_right (by simp), Bytes.slice_append_right (by simp)]
  rfl

theorem ofLe_toNat {w width : Nat} (x : BitVec w) (bits : 2 ^ w = 256 ^ width) :
    Bytes.ofLe (Bytes.le width x.toNat) = x.toNat := by
  rw [Bytes.ofLe_le, ← bits, Nat.mod_eq_of_lt x.isLt]

theorem decode_encode (e : E820Entry) : E820Entry.decode e.encode = e := by
  rw [E820Entry.decode, slice_addr, slice_size, slice_type, ofLe_toNat _ (by decide),
    ofLe_toNat _ (by decide), ofLe_toNat _ (by decide), BitVec.ofNat_toNat, BitVec.ofNat_toNat,
    BitVec.ofNat_toNat, BitVec.setWidth_eq, BitVec.setWidth_eq, BitVec.setWidth_eq]

/-- The registers carry the bytes of an entry. -/
theorem store_entry (entry : load m rsi 20 = e.encode) :
    store (store (store m rdi (Bytes.le 8 (Bytes.ofLe (load m rsi 8)))) (rdi + 8)
      (Bytes.le 8 (Bytes.ofLe (load m (rsi + 8) 8)))) (rdi + 16)
      (Bytes.le 4 (Bytes.ofLe (load m (rsi + 16) 4))) = store m rdi e.encode := by
  rw [Bytes.le_ofLe (length_load _ _ _), Bytes.le_ofLe (length_load _ _ _),
    Bytes.le_ofLe (length_load _ _ _), store_store (by simp), store_store (by simp), ← load_add,
    ← load_add, entry]

theorem size_of_load (entry : load m rsi 20 = e.encode) :
    Bytes.ofLe (load m (rsi + 8) 8) = e.size.toNat := by
  rw [← slice_load (show 8 + 8 ≤ 20 by decide), entry, slice_size, ofLe_toNat _ (by decide)]

/-! ### The loop -/

theorem length_encode (e : E820Entry) : e.encode.length = 20 := by
  simp [E820Entry.encode]

theorem Left.tail (h : Left m rsi (e :: entries)) (above : rsi + 32 * (entries.length + 2) ≤ rdi)
    (bytes : Bytes) : Left (store m rdi bytes) (rsi + 32) entries where
  stored i inside := by
    have place : rsi + 32 + 32 * i = rsi + 32 * (i + 1) := by omega
    rw [load_store_above (by omega), place]
    exact h.stored (i + 1) (Nat.succ_lt_succ inside)
  sized other mem := h.sized other (List.mem_cons_of_mem _ mem)
  ended := by
    have place : rsi + 32 + 32 * entries.length + 8 = rsi + 32 * (e :: entries).length + 8 := by
      rw [List.length_cons]
      omega
    rw [load_store_above (by omega), place]
    exact h.ended

theorem Copied.cons (h : Copied (store m rdi e.encode) after (rdi + 20) entries) :
    Copied m after rdi (e :: entries) where
  copied i inside := by
    cases i with
    | zero =>
        have kept : slot after rdi 20 0 = load (store m rdi e.encode) rdi 20 :=
          load_congr fun x inside => h.outside _ (.inl (by omega))
        rw [kept, load_store_whole (length_encode e), List.getElem_cons_zero]
    | succ i =>
        have place : rdi + 20 * (i + 1) = rdi + 20 + 20 * i := by omega
        rw [slot, place, List.getElem_cons_succ]
        exact h.copied i (Nat.lt_of_succ_lt_succ inside)
  outside a away := by
    rw [List.length_cons] at away
    rw [h.outside a (by omega), store_outside (by rw [length_encode]; omega)]

/-- The loop copies what the bootloader has left, if the destination is above it. -/
theorem readEntry_copies {fuel : Nat} (cl : UInt8) (left : Left m rsi entries)
    (above : rsi + 32 * (entries.length + 1) ≤ rdi) (budget : entries.length < fuel) :
    ∃ after, readEntry fuel rsi rdi cl m =
        .ok (store after (zeroPage + entriesOffset) [cl + UInt8.ofNat entries.length]) ∧
      Copied m after rdi entries := by
  induction entries generalizing m rsi rdi cl fuel with
  | nil =>
      obtain ⟨fuel, rfl⟩ := Nat.exists_eq_succ_of_ne_zero (Nat.ne_of_gt budget)
      have ended : Bytes.ofLe (load m (rsi + 8) 8) = 0 := left.ended
      have none : cl + UInt8.ofNat ([] : List E820Entry).length = cl := UInt8.add_zero cl
      refine ⟨m, ?_, fun _ inside => absurd inside (Nat.not_lt_zero _), fun _ _ => rfl⟩
      rw [readEntry, ended, if_pos rfl, none]
  | cons e entries ih =>
      obtain ⟨fuel, rfl⟩ := Nat.exists_eq_succ_of_ne_zero (Nat.ne_of_gt (Nat.zero_lt_of_lt budget))
      rw [List.length_cons] at above budget
      have first : load m rsi 20 = e.encode := left.stored 0 (Nat.zero_lt_succ _)
      have sized : Bytes.ofLe (load m (rsi + 8) 8) ≠ 0 := by
        rw [size_of_load first]
        have nonzero := left.sized e (List.mem_cons_self ..)
        exact fun zero => nonzero (BitVec.eq_of_toNat_eq zero)
      obtain ⟨after, rest, copied⟩ := ih (cl + 1) (left.tail above e.encode)
        (by omega : rsi + 32 + 32 * (entries.length + 1) ≤ rdi + 20) (Nat.lt_of_succ_lt_succ budget)
      have counted : cl + 1 + UInt8.ofNat entries.length =
          cl + UInt8.ofNat (e :: entries).length := by
        rw [List.length_cons, Nat.add_comm, UInt8.ofNat_add, UInt8.add_assoc]
        rfl
      refine ⟨after, ?_, copied.cons⟩
      rw [readEntry, if_neg sized]
      simp only [store_entry first, rest, counted]

/-! ### The table of the kernel -/

/-- What the kernel reads depends on the counter and on the copied entries. -/
theorem table_eq {count : UInt8} (copied : Copied m after (zeroPage + tableOffset) entries)
    (counted : count.toNat ≤ entries.length) :
    table zeroPage (store after (zeroPage + entriesOffset) [count]) =
      entries.take count.toNat := by
  have counter : store after (zeroPage + entriesOffset) [count] (zeroPage + entriesOffset) =
      count := by simp [store]
  have same (i : Nat) : slot (store after (zeroPage + entriesOffset) [count])
      (zeroPage + tableOffset) 20 i = slot after (zeroPage + tableOffset) 20 i := by
    refine load_congr fun x _ => store_outside (.inr ?_)
    simp only [List.length_singleton, entriesOffset, tableOffset]
    omega
  rw [table, counter]
  apply List.ext_getElem
  · rw [List.length_map, List.length_range, List.length_take, Nat.min_eq_left counted]
  · intro i inside _
    rw [List.length_map, List.length_range] at inside
    rw [List.getElem_map, List.getElem_range, same, copied.copied i (by omega), decode_encode,
      List.getElem_take]

/-- The table is read between the counter and the end of the entries. -/
theorem table_congr {n : Nat} (counted : (m (zeroPage + entriesOffset)).toNat ≤ n)
    (same : ∀ a, zeroPage + entriesOffset ≤ a → a < zeroPage + tableOffset + 20 * n →
      after a = m a) : table zeroPage after = table zeroPage m := by
  have counter : after (zeroPage + entriesOffset) = m (zeroPage + entriesOffset) :=
    same _ (Nat.le_refl _) (by unfold entriesOffset tableOffset; omega)
  rw [table, table, counter]
  refine List.map_congr_left fun i inside => congrArg E820Entry.decode (load_congr fun x _ => ?_)
  rw [List.mem_range] at inside
  exact same _ (by unfold entriesOffset tableOffset; omega) (by omega)

/-! ### The gate -/

/-- The gate of the other cores in the table of the bootloader. -/
def apGate (register : Idt.TableRegister) : Nat := register.base + 16 * 0x81

theorem installApGate_eq (S : Stub) {register : Idt.TableRegister}
    (fits : apGate register + 16 ≤ 2 ^ 64) :
    installApGate S register m =
      store (store m S.idtr (Bytes.le 2 register.limit ++ Bytes.le 8 register.base))
        (apGate register) (Idt.gateBytes 0 8 0x8e S.kernelApStart) := by
  unfold apGate at fits ⊢
  have base : Bytes.ofLe (load (store m S.idtr (Bytes.le 2 register.limit ++
      Bytes.le 8 register.base)) (S.idtr + 2) 8) = register.base := by
    rw [← slice_load (show 2 + 8 ≤ 10 by decide), load_store_whole (by simp),
      Bytes.slice_append_right (by simp), Bytes.length_le, Nat.sub_self,
      ← List.append_nil (Bytes.le 8 _), Bytes.slice_append_left (by simp)]
    have whole : Bytes.slice 0 8 (Bytes.le 8 register.base) = Bytes.le 8 register.base := rfl
    rw [whole, Bytes.ofLe_le, Nat.mod_eq_of_lt (show register.base < 256 ^ 8 by omega)]
  have low : ∀ k < 16, u64 (register.base + 16 * 0x81 + k) = register.base + 16 * 0x81 + k :=
    fun k _ => u64_of_lt (by omega)
  have first : u64 (register.base + 0x81 * 16) = register.base + 16 * 0x81 := low 0 (by decide)
  rw [installApGate, base, first, low 2 (by decide), low 4 (by decide), low 5 (by decide),
    low 6 (by decide), low 8 (by decide), low 12 (by decide)]
  rw [store_store (by simp), store_store (by simp), store_store (by simp), store_store (by simp),
    store_store (by simp), store_store (by simp)]
  rfl

/-- The gate and the variable are all that is changed. -/
theorem installApGate_outside (S : Stub) {register : Idt.TableRegister}
    (fits : apGate register + 16 ≤ 2 ^ 64) {a : Nat} (idtr : a < S.idtr ∨ S.idtr + 10 ≤ a)
    (gate : a < apGate register ∨ apGate register + 16 ≤ a) :
    installApGate S register m a = m a := by
  rw [installApGate_eq S fits, store_outside (by rw [Idt.length_gateBytes]; exact gate),
    store_outside (by simpa using idtr)]

/-- **The kernel finds the memory map of the bootloader**, up to a multiple of 256 entries: the
counter has eight bits. The first core gets to the kernel with the address of the zero page, and
vector `0x81` of the bootloader leads the other cores the same way. Nothing else is changed. -/
theorem memory_map_reaches_kernel {fuel : Nat} (S : Stub) (register : Idt.TableRegister)
    (left : Left m bootloaderEntries entries)
    (room : 32 * (entries.length + 1) ≤ zeroPage - bootloaderEntries)
    (budget : entries.length < fuel) (stub : S.idtr + 10 ≤ zeroPage)
    (code : S.kernelApStart < 2 ^ 64) (fits : apGate register + 16 ≤ 2 ^ 64)
    (apart : apGate register + 16 ≤ zeroPage + entriesOffset ∨
      zeroPage + tableOffset + 20 * entries.length ≤ apGate register) :
    ∃ after, stage0Start fuel S register m = .ok after ∧
      table after.rsi after.memory = entries.take (entries.length % 256) ∧
      (after.rsi = zeroPage ∧ after.rip = kernelStart) ∧
      Idt.Gate.decode (load after.memory (apGate register) 16) =
        ⟨S.kernelApStart, 8, 0, .interrupt, 0, true⟩ ∧
      ∀ a, a < zeroPage + tableOffset ∨ zeroPage + tableOffset + 20 * entries.length ≤ a →
        a ≠ zeroPage + entriesOffset → a < S.idtr ∨ S.idtr + 10 ≤ a →
        a < apGate register ∨ apGate register + 16 ≤ a → after.memory a = m a := by
  have above : bootloaderEntries + 32 * (entries.length + 1) ≤ zeroPage + tableOffset := by
    unfold bootloaderEntries zeroPage tableOffset at *
    omega
  obtain ⟨copy, run, copied⟩ := readEntry_copies 0 left above budget
  have count : (0 + UInt8.ofNat entries.length).toNat = entries.length % 256 := by
    rw [UInt8.zero_add, UInt8.toNat_ofNat']
  have counter : store copy (zeroPage + entriesOffset) [0 + UInt8.ofNat entries.length]
      (zeroPage + entriesOffset) = 0 + UInt8.ofNat entries.length := by
    simp [store]
  have counted : (0 + UInt8.ofNat entries.length).toNat ≤ entries.length := by
    rw [count]
    exact Nat.mod_le _ _
  refine ⟨_, by rw [stage0Start, run]; rfl, ?_, ⟨rfl, rfl⟩, ?_, fun a away other idtr gate => ?_⟩
  · rw [kernelApStart_memory, kernelApStart_rsi]
    refine (table_congr (n := entries.length) (by rwa [counter]) fun a lower upper =>
      installApGate_outside S fits (.inr ?_) ?_).trans ?_
    · omega
    · omega
    · rw [table_eq copied counted, count]
  · rw [kernelApStart_memory, installApGate_eq S fits, load_store_whole Idt.length_gateBytes,
      Idt.decode_gateBytes code (by decide) (by decide) (by decide)]
    rfl
  · rw [kernelApStart_memory, installApGate_outside S fits idtr gate,
      store_outside (by rw [List.length_singleton]; omega), copied.outside a away]

/-- A page of memory below the image, with one range of RAM. -/
def sampleMemory : Memory :=
  store (fun _ => 0) bootloaderEntries (E820Entry.encode ⟨0x100000, 0x7f00000, 1⟩)

/-- The interrupt table of the bootloader is at the beginning of memory. -/
def sampleStart : Result Handover := stage0Start 2 ⟨0x1000c0, 0x10008a⟩ ⟨0xfff, 0⟩ sampleMemory

theorem memory_map_reaches_kernel_sample : ∃ after, sampleStart = .ok after ∧
    table after.rsi after.memory = [⟨0x100000, 0x7f00000, 1⟩] ∧
    (Idt.Gate.decode (load after.memory 0x810 16)).offset = 0x10008a := by
  have stored : load sampleMemory bootloaderEntries 20 =
      E820Entry.encode ⟨0x100000, 0x7f00000, 1⟩ := by decide
  have left : Left sampleMemory bootloaderEntries [⟨0x100000, 0x7f00000, 1⟩] := by
    refine ⟨fun i inside => ?_, by decide, by decide⟩
    obtain rfl : i = 0 := by simpa using inside
    exact stored
  obtain ⟨after, run, found, -, gate, -⟩ := memory_map_reaches_kernel ⟨0x1000c0, 0x10008a⟩
    ⟨0xfff, 0⟩ left (by decide) (by decide : _ < 2) (by decide) (by decide) (by decide)
    (.inl (by decide))
  exact ⟨after, run, found, congrArg Idt.Gate.offset gate⟩

end E820

end Monza
