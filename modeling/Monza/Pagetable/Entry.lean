import Monza.Machine

/-!
# Page table entries

The entry is the raw 64-bit word of the hardware. Node pointers and page
addresses occupy bits 12 to 51; everything else is flags. Leaf and intermediate
entries take different flags, and both depend on whether the table is the
kernel's own or that of a compartment.
-/

namespace Monza

def ptePresent : BitVec 64 := 0x0001
def pteWritable : BitVec 64 := 0x0002
def pteUser : BitVec 64 := 0x0004
def ptePagesize : BitVec 64 := 0x0080
def pteGlobal : BitVec 64 := 0x0100

/-- The enumerators of `PagetableLevels`, which the source uses as integers. -/
def ptLevel : Nat := 0
def pdLevel : Nat := 1
def pdpLevel : Nat := 2
def pml4Level : Nat := 3

/-- `PAGETABLE_LOWEST_LEVEL`: large pages end the walk one level earlier. -/
def PageSize.lowestLevel : PageSize → Nat
  | .kib4 => ptLevel
  | .mib2 => pdLevel

inductive PagetablePermission where
  | noAccess
  | kernelRead
  | kernelWrite
  | forceKernelWrite
  | compartmentWrite
  | compartmentRead
  deriving DecidableEq, Repr

inductive PagetableType where
  | normal
  | persistent
  deriving DecidableEq, Repr

def pagetableIntermediatePermissions (isKernel : Bool) : BitVec 64 :=
  if isKernel then ptePresent ||| pteWritable else ptePresent ||| pteWritable ||| pteUser

def pagetableLeafPermissions (isKernel : Bool) : PagetablePermission → BitVec 64
  | .noAccess => 0#64
  | .kernelWrite => ptePresent ||| (if isKernel then pteWritable else pteUser)
  | .kernelRead => ptePresent ||| (if isKernel then 0#64 else pteUser)
  | .forceKernelWrite => ptePresent ||| pteWritable
  | .compartmentWrite => ptePresent ||| pteWritable ||| pteUser
  | .compartmentRead => ptePresent ||| pteUser

def pagetableLeafPagesize (level : Nat) : BitVec 64 :=
  if level = ptLevel then 0#64 else ptePagesize

def pagetableTypePermissions : PagetableType → BitVec 64
  | .normal => 0#64
  | .persistent => pteGlobal

@[ext] structure PagetableEntry where
  entry : BitVec 64
  deriving DecidableEq, Repr

namespace PagetableEntry

def permissionMask : BitVec 64 := 0xFFF0000000000FFF
def addressMask : BitVec 64 := ~~~permissionMask

/-- The default constructor leaves the zero entry. -/
def null : PagetableEntry := ⟨0#64⟩

def setNextLevel (isKernel : Bool) (ptr : Nat) (type : PagetableType) : PagetableEntry :=
  ⟨BitVec.ofNat 64 ptr ||| pagetableTypePermissions type |||
    pagetableIntermediatePermissions isKernel⟩

def setLeaf (isKernel : Bool) (addr : Nat) (type : PagetableType) (perm : PagetablePermission)
    (level : Nat) : PagetableEntry :=
  ⟨BitVec.ofNat 64 addr ||| pagetableTypePermissions type |||
    pagetableLeafPermissions isKernel perm ||| pagetableLeafPagesize level⟩

def reset (_ : PagetableEntry) : PagetableEntry := ⟨0#64⟩

def isPersistent (e : PagetableEntry) : Bool :=
  e.entry &&& pagetableTypePermissions .persistent == pagetableTypePermissions .persistent

def isLargeMapping (e : PagetableEntry) : Bool := e.entry &&& ptePagesize != 0#64

def nextLevel (e : PagetableEntry) : Nat := (e.entry &&& addressMask).toNat

/-- A flag bit of the entry is set. -/
def has (e : PagetableEntry) (flag : BitVec 64) : Bool := e.entry &&& flag != 0#64

/-- Page-aligned addresses below `2 ^ 52` lie entirely under the address mask. -/
theorem ofNat_and_addressMask {p : Nat} (aligned : p % 4096 = 0) (bound : p < 2 ^ 52) :
    BitVec.ofNat 64 p &&& addressMask = BitVec.ofNat 64 p := by
  obtain ⟨k, rfl⟩ := Nat.dvd_of_mod_eq_zero aligned
  have hk : k < 2 ^ 40 := by omega
  have hshift : 4096 * k = k <<< 12 := by rw [Nat.shiftLeft_eq, Nat.mul_comm]
  have hmask : addressMask.toNat = (2 ^ 40 - 1) <<< 12 := by decide
  apply BitVec.eq_of_toNat_eq
  rw [BitVec.toNat_and, BitVec.toNat_ofNat, Nat.mod_eq_of_lt (by omega), hmask, hshift,
    ← Nat.shiftLeft_and_distrib, Nat.and_two_pow_sub_one_eq_mod, Nat.mod_eq_of_lt hk]

/-- Low flags stay clear of a page-aligned address. -/
theorem ofNat_and_flag {p : Nat} {flag : BitVec 64} (aligned : p % 4096 = 0)
    (low : flag.toNat < 4096) : BitVec.ofNat 64 p &&& flag = 0#64 := by
  obtain ⟨k, rfl⟩ := Nat.dvd_of_mod_eq_zero aligned
  have hmod : 4096 * k % 2 ^ 64 = 2 ^ 12 * (k % 2 ^ 52) := Nat.mul_mod_mul_left (2 ^ 12) k (2 ^ 52)
  apply BitVec.eq_of_toNat_eq
  rw [BitVec.toNat_and, BitVec.toNat_ofNat, hmod]
  apply Nat.eq_of_testBit_eq
  intro i
  rw [Nat.testBit_and, Nat.testBit_two_pow_mul, BitVec.toNat_zero, Nat.zero_testBit]
  by_cases hi : 12 ≤ i
  · have small := Nat.lt_of_lt_of_le low (Nat.pow_le_pow_right (n := 2) (by decide) hi)
    rw [Nat.testBit_lt_two_pow small, Bool.and_false]
  · rw [decide_eq_false hi, Bool.false_and, Bool.false_and]

/-- Reading a flag back from an address combined with flags. -/
theorem has_mk {p : Nat} {flags flag : BitVec 64} (aligned : p % 4096 = 0)
    (low : flag.toNat < 4096) :
    has ⟨BitVec.ofNat 64 p ||| flags⟩ flag = (flags &&& flag != 0#64) := by
  simp only [has]
  rw [BitVec.and_or_distrib_right, ofNat_and_flag aligned low, BitVec.zero_or]

/-- Reading the address back. -/
theorem nextLevel_mk {p : Nat} {flags : BitVec 64} (aligned : p % 4096 = 0)
    (bound : p < 2 ^ 52) (clear : flags &&& addressMask = 0#64) :
    nextLevel ⟨BitVec.ofNat 64 p ||| flags⟩ = p := by
  simp only [nextLevel]
  rw [BitVec.and_or_distrib_right, ofNat_and_addressMask aligned bound, clear,
    BitVec.or_zero, BitVec.toNat_ofNat]
  exact Nat.mod_eq_of_lt (by omega)

@[simp] theorem nextLevel_null : nextLevel null = 0 := by decide

@[simp] theorem has_null (flag : BitVec 64) : null.has flag = false := by
  simp [has, null]

@[simp] theorem nextLevel_setNextLevel {isKernel : Bool} {ptr : Nat} {type : PagetableType}
    (aligned : ptr % 4096 = 0) (bound : ptr < 2 ^ 52) :
    (setNextLevel isKernel ptr type).nextLevel = ptr := by
  rw [setNextLevel, BitVec.or_assoc]
  apply nextLevel_mk aligned bound
  cases isKernel <;> cases type <;> decide

theorem has_setNextLevel {isKernel : Bool} {ptr : Nat} {type : PagetableType}
    {flag : BitVec 64} (aligned : ptr % 4096 = 0) (low : flag.toNat < 4096) :
    (setNextLevel isKernel ptr type).has flag =
      ((pagetableTypePermissions type ||| pagetableIntermediatePermissions isKernel) &&& flag
        != 0#64) := by
  rw [setNextLevel, BitVec.or_assoc]
  exact has_mk aligned low

end PagetableEntry

end Monza
