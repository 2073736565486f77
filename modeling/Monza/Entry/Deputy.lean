import Monza.Compartment.Permanence
import Monza.Entry.Context
import Monza.Lib.X86Access

/-!
# The stack that a system call pushes to

The processor does not switch stacks on a system call. The first instruction of `kernel_enter`
pushes in kernel mode, under the table of the compartment, to wherever the compartment has left its
stack pointer. What the compartment could not write itself, the kernel then writes for it, or the
push traps and `page_fault_handler` ends the system.

The page tables are those of any run of the compartments. Rights are judged as the processor does:
all entries of the walk count, and in kernel mode the user flag does not.
-/

namespace Monza

open X86 X86.Reg Asm Transition Radix

inductive AccessTrap where
  | notCanonical
  | pageFault
  deriving DecidableEq, Repr

/-- The upper bits of an address repeat bit 47. -/
def canonical (address : Nat) : Bool :=
  decide (address < 2 ^ 47) || decide (2 ^ 64 - 2 ^ 47 ≤ address)

theorem canonical_of_lt {a : Nat} (h : a < 2 ^ 47) : canonical a = true := by
  rw [canonical, decide_eq_true h, Bool.true_or]

/-- Write protection also holds in kernel mode, as `CR0.WP` is set. -/
def Rights.supervisorMay (r : Rights) : AccessKind → Bool
  | .read => r.present
  | .write => r.present && r.writable

/-- The trap of an access in kernel mode. -/
def supervisorTrap (tables : PagetableStore) (a : Access) : Option AccessTrap :=
  if a.bytes.all canonical = false then some .notCanonical
  else if a.bytes.all fun b => (effectiveRights tables b pml4Level a.root).supervisorMay a.kind then
    none
  else some .pageFault

/-- User mode may write to all bytes of an access, under a given table. -/
def UserMayWrite (tables : PagetableStore) (root : Nat) (a : Access) : Prop :=
  ∀ b ∈ a.bytes, effectiveRights tables b pml4Level root = ⟨true, true, true⟩

instance (tables : PagetableStore) (root : Nat) (a : Access) :
    Decidable (UserMayWrite tables root a) :=
  inferInstanceAs (Decidable (∀ b ∈ a.bytes, _))

/-- The instructions of `kernel_enter` up to the one that loads the kernel stack. -/
def kernelEnterUntilStack (S : Symbols) : List Asm :=
  [.push (reg r11), .mov rcx (reg r10), .mov rax (var S.kernelPagetable), .writeCr3 rax] ++
    resetPerCorePointer S ++ getThreadExecutionContextEntry r10 ++
      [.mov r11 (reg rsp), .mov rsp (.place (coreData r10 tecLastSpOffset))]

theorem kernelEnter_exec (S : Symbols) (E : Env CppFunction StackTrap) (c : KernelConfig) :
    (kernelEnter S).exec E c =
      (Code.seq (.block (kernelEnterUntilStack S))
        (.seq (.block [.mov rax (.place (coreData r10 tecTlsOffset)), .wrfsbase rax])
          (kernelEnterDispatch S))).exec E c := by
  have context : kernelEnterContext S = (resetPerCorePointer S ++
      getThreadExecutionContextEntry r10 ++
        [.mov r11 (reg rsp), .mov rsp (.place (coreData r10 tecLastSpOffset))]) ++
      [.mov rax (.place (coreData r10 tecTlsOffset)), .wrfsbase rax] := by
    rw [kernelEnterContext, List.append_assoc _ [_, _] [_, _]]
    rfl
  rw [kernelEnter, kernelEnterUntilStack, context, List.append_assoc, List.append_assoc,
    ← List.append_assoc (resetPerCorePointer S)]
  simp only [Code.exec, Code.exec_block_append]

/-- What `kernel_enter` accesses in a state before it has the kernel stack, and the trap if one
stops it. -/
def kernelEnterAccesses (S : Symbols) (E : Env CppFunction StackTrap) (tables : PagetableStore)
    (m : State) : List Access × Option AccessTrap :=
  attempt (supervisorTrap tables) (accesses E (kernelEnterUntilStack S) m)

/-- Nothing is stored that user mode could not store under the installed table, and no page fault
is taken. -/
def NoDeputy (S : Symbols) (E : Env CppFunction StackTrap) (tables : PagetableStore) (m : State) :
    Prop :=
  (∀ a ∈ (kernelEnterAccesses S E tables m).1, a.kind = .write → UserMayWrite tables m.cr3 a) ∧
    (kernelEnterAccesses S E tables m).2 ≠ some .pageFault

/-- The push of the flags. -/
def flagsPush (m : State) : Access := ⟨.write, m.cr3, m.pushAddress⟩

@[simp] theorem flagsPush_address (m : State) : (flagsPush m).address = m.pushAddress := rfl

section Walk

variable {P : Platform} {s₀ s : System} {events : List Event} {o : CompartmentOwner} {root a : Nat}

namespace Platform

/-- The pages of the image. -/
def image (P : Platform) : Set Nat :=
  {a | ∃ e ∈ predefinedMap P.ps P.layout, e.perm ≠ .noAccess ∧ e.range.overlaps a = true}

/-- Nothing in the image lies before its start. -/
theorem elfStart_le_of_image (h : a ∈ P.image) : P.layout.elfStart ≤ a := by
  obtain ⟨e, mem, perm, overlaps⟩ := h
  have start := (AddressRange.overlaps_iff.mp overlaps).1
  have ordered := P.layout.writableAfterStart
  simp only [predefinedMap, List.mem_cons, List.not_mem_nil, or_false] at mem
  rcases mem with rfl | rfl | rfl
  · exact absurd rfl perm
  · exact start
  · exact Nat.le_trans ordered start

theorem present_of_perm {perm : PagetablePermission} (h : perm ≠ .noAccess) :
    (Rights.ofFlags (pagetableLeafPermissions false perm)).present = true := by
  cases perm with
  | noAccess => exact absurd rfl h
  | _ => decide

/-- Compartments can read the image from the start. -/
theorem present_of_image (h : a ∈ P.image) : (P.policy.initial a).rights.present = true := by
  have above := elfStart_le_of_image h
  obtain ⟨e, mem, -, overlaps⟩ := h
  have inside := AddressRange.overlaps_iff.mp overlaps
  have fits := P.fits e (List.mem_append_left _ mem)
  have call : e.call ∈ P.creationCalls := List.mem_map_of_mem (List.mem_append_left _ mem)
  obtain ⟨last, lastMem, covers, value⟩ := initial_of_covered call (fits.covers_iff.mpr inside)
    (Nat.lt_of_lt_of_le inside.2 fits.bound)
  have below := ((P.fits last lastMem).covers_iff.mp covers).2
  rw [value, MapEntry.call, TableCall.rights_value]
  apply present_of_perm
  simp only [predefinedMap, interruptStackMap, List.cons_append, List.nil_append, List.mem_cons,
    List.not_mem_nil, or_false] at lastMem
  rcases lastMem with rfl | rfl | rfl | rfl
  · -- the entry without access ends where the image starts
    rw [AddressRange.ofBounds_stop, Nat.zero_max] at below
    exact absurd above (Nat.not_le.mpr below)
  all_goals exact fun no => by cases no

/-- Leaves end the walk of the processor, and those of the image are present. -/
def LeafOk (P : Platform) (a : Nat) (l : PagetableEntry) : Prop :=
  l.EndsWalk P.ps ∧ (a ∈ P.image → l.rights.present = true)

theorem leafOk_stable (u : Ownership.State Nat CompartmentOwner PagetableEntry)
    (action : Ownership.Action Nat CompartmentOwner) :
    Ownership.Stable P.policy (fun _ a _ l => P.LeafOk a l) u action := by
  apply Ownership.leaf_stable
  · intro x
    refine ⟨?_, present_of_image⟩
    rcases P.initial_cases x with null | ⟨e, -, -, value⟩
    · rw [null]
      exact PagetableEntry.endsWalk_null
    · rw [value]
      exact TableCall.endsWalk_value _ _
  · intro x _
    refine ⟨endsWalk_leafFor, fun _ => ?_⟩
    show (leafFor P.ps false .normal .compartmentWrite x).rights.present = true
    rw [rights_leafFor]
    decide
  · intro x
    refine ⟨endsWalk_leafFor, fun _ => ?_⟩
    show (leafFor P.ps false .normal .compartmentRead x).rights.present = true
    rw [rights_leafFor]
    decide
  · intro x grantable
    refine ⟨PagetableEntry.endsWalk_null, fun image => ?_⟩
    have present := present_of_image image
    rw [absent_of_grantable grantable] at present
    cases present

end Platform

/-- In every run, the processor finds the leaf of an address, and it is as it should be. -/
theorem System.walk_of_run (init : s₀.Initial) (run : Run (Event.Step P) s₀ events s)
    (h : s.roots o = some root) (a : Nat) :
    effectiveRights s.tables a pml4Level root =
        (getPagetableEntry P.ps s.tables root pml4Level (a % 2 ^ 48)).rights ∧
      P.LeafOk (a % 2 ^ 48) (getPagetableEntry P.ps s.tables root pml4Level (a % 2 ^ 48)) := by
  obtain ⟨⟨⟨nodesOf, coherent⟩, -⟩, leaves⟩ := leaves_of_run init run (fun _ _ _ h => h)
    (fun _ _ _ _ _ _ => ⟨fun a _ => Platform.leafOk_stable _ a,
      fun a _ u => Platform.leafOk_stable u a⟩)
  have leaf := leaf_of_leaves leaves h (Nat.mod_lt a (by decide))
  refine ⟨?_, leaf⟩
  rw [← effectiveRights_mod a (Nat.le_refl _)]
  exact (coherent.table o root h).effectiveRights_eq leaf.1

/-- What user mode may write belongs to the compartment. -/
theorem System.owner_of_userMayWrite (init : s₀.Initial) (run : Run (Event.Step P) s₀ events s)
    (h : s.roots o = some root) (lt : a < 2 ^ 48)
    (writable : effectiveRights s.tables a pml4Level root = ⟨true, true, true⟩) :
    OwnershipMap.getMonzaOwner P.unit s.ownership a = o := by
  obtain ⟨-, leaves⟩ := leaves_of_run init run (fun _ _ _ h => h)
    (Q := fun o _ w l => l.UserWritable → w = o)
    (fun _ _ _ _ _ _ => ⟨fun _ _ => Ownership.writes_stable P.not_userWritable_initial
      P.not_userWritable_shared P.not_userWritable_blank, fun _ _ _ => Ownership.writes_stable
        P.not_userWritable_initial P.not_userWritable_shared P.not_userWritable_blank⟩)
  refine leaf_of_leaves leaves h lt ?_
  have walk := (walk_of_run init run h a).1
  rw [Nat.mod_eq_of_lt lt] at walk
  exact walk.symm.trans writable

end Walk

section Syscall

variable {P : Platform} {K : KernelCore} {s₀ s : System} {events : List Event}
variable {o : CompartmentOwner} {root : Nat} {m : State} {E : Env CppFunction StackTrap}

/-- A compartment makes a system call: its table is installed, all registers are its own. The
kernel's words are in place and belong to no compartment; `kernel_pagetable` is part of the image,
and the kernel's table maps the words that are read under it. -/
structure AtSyscall (P : Platform) (K : KernelCore) (s : System) (o : CompartmentOwner)
    (m : State) : Prop where
  root : s.roots o = some m.cr3
  task : m.tr = K.taskRegister
  words : K.Words m.memory
  unowned : ∀ w ∈ K.wordAddresses, OwnershipMap.getMonzaOwner P.unit s.ownership w = .null
  low : ∀ w ∈ K.wordAddresses ++ [K.perCore + pcdTecOffset + tecLastSpOffset], w + 8 ≤ 2 ^ 47
  image : ∀ i < 8, K.symbols.kernelPagetable + i ∈ P.image
  mapped : ∀ w ∈ [K.symbols.perCoreData, K.perCore, K.perCore + pcdTecOffset + tecLastSpOffset],
    ∀ i < 8, (effectiveRights s.tables (w + i) pml4Level K.kernelPagetable).present = true

/-- The push comes first. -/
theorem accesses_kernelEnter_cons {S : Symbols} :
    ∃ rest, accesses E (kernelEnterUntilStack S) m = flagsPush m :: rest := by
  rw [kernelEnterUntilStack, List.append_assoc, List.append_assoc, List.cons_append, accesses]
  simp only [Instr.accesses, Operand.accesses, List.nil_append, List.cons_append, flagsPush]
  exact ⟨_, rfl⟩

/-- Everything that is accessed when the push has spared the kernel's words. -/
theorem accesses_kernelEnter (task : m.tr = K.taskRegister) (words : K.Words m.memory)
    (spared : m.pushAddress ∉ K.wordAddresses) :
    accesses E (kernelEnterUntilStack K.symbols) m =
      [flagsPush m, ⟨.read, m.cr3, K.symbols.kernelPagetable⟩,
        ⟨.read, K.kernelPagetable, K.symbols.perCoreData⟩, ⟨.read, K.kernelPagetable, K.perCore⟩,
        ⟨.read, K.kernelPagetable, K.perCore + pcdTecOffset + tecLastSpOffset⟩] := by
  have after := words.update (m.regs r11) spared
  have bound := K.dataBound
  have pointer := K.perCore_of_taskRegister
  have root : word K.kernelPagetable = K.kernelPagetable := word_of_lt K.rootBound
  have self : word K.perCore = K.perCore := word_of_lt (by unfold KernelCore.perCore; omega)
  have entry : word (K.perCore + 0x18) = K.perCore + 0x18 :=
    word_of_lt (by unfold KernelCore.perCore; omega)
  have slot : word (K.perCore + 0x18 + 0x28) = K.perCore + 0x18 + 0x28 :=
    word_of_lt (by unfold KernelCore.perCore; omega)
  simp [kernelEnterUntilStack, resetPerCorePointer, getThreadExecutionContextEntry,
    getPerCoreDataAddress, flagsPush, task, after.root, after.data, root, pcdLog2Size,
    pcdSelfOffset, pcdTecOffset, tecLastSpOffset] at pointer ⊢
  refine ⟨pointer, ?_⟩
  rw [pointer, after.self, self, entry, slot]

theorem supervisorTrap_read {tables : PagetableStore} {w : Nat} (low : w + 8 ≤ 2 ^ 47)
    (present : ∀ i < 8, (effectiveRights tables (w + i) pml4Level root).present = true) :
    supervisorTrap tables ⟨.read, root, w⟩ = none := by
  have bytes : ∀ b ∈ (⟨.read, root, w⟩ : Access).bytes, ∃ i < 8, b = w + i :=
    fun b => (Access.mem_bytes (Nat.le_trans low (by decide))).mp
  have all : (⟨.read, root, w⟩ : Access).bytes.all canonical = true := by
    rw [List.all_eq_true]
    intro b mem
    obtain ⟨i, lt, rfl⟩ := bytes b mem
    exact canonical_of_lt (by omega)
  rw [supervisorTrap, if_neg (by rw [all]; exact Bool.noConfusion), if_pos]
  rw [List.all_eq_true]
  intro b mem
  obtain ⟨i, lt, rfl⟩ := bytes b mem
  exact present i lt

theorem supervisorTrap_of_userMayWrite {tables : PagetableStore} {a : Access}
    (all : a.bytes.all canonical = true) (may : UserMayWrite tables a.root a) :
    supervisorTrap tables a = none := by
  rw [supervisorTrap, if_neg (by rw [all]; exact Bool.noConfusion), if_pos]
  rw [List.all_eq_true]
  intro b mem
  rw [may b mem]
  cases a.kind <;> rfl

/-- Words of the kernel cannot be pushed to where user mode may write. -/
theorem AtSyscall.spared (at_ : AtSyscall P K s o m) (init : s₀.Initial)
    (run : Run (Event.Step P) s₀ events s) (may : UserMayWrite s.tables m.cr3 (flagsPush m)) :
    m.pushAddress ∉ K.wordAddresses := by
  intro mem
  have low := at_.low _ (List.mem_append_left _ mem)
  have first : m.pushAddress ∈ (flagsPush m).bytes := by
    rw [Access.mem_bytes (by rw [flagsPush_address]; omega)]
    exact ⟨0, by decide, by rw [flagsPush_address, Nat.add_zero]⟩
  have owner := System.owner_of_userMayWrite init run at_.root (by omega) (may _ first)
  have wf := (leaves_of_run init run (fun _ _ _ h => h) (fun _ _ _ _ _ _ =>
    ⟨fun a _ => Platform.leafOk_stable _ a, fun a _ u => Platform.leafOk_stable u a⟩)).1
  have known : o ≠ .null := wf.known (by rw [at_.root]; exact Option.some_ne_none _)
  exact known (owner.symm.trans (at_.unowned _ mem))

/-- The reads behind the push do not trap. -/
theorem AtSyscall.reads (at_ : AtSyscall P K s o m) (init : s₀.Initial)
    (run : Run (Event.Step P) s₀ events s) :
    supervisorTrap s.tables ⟨.read, m.cr3, K.symbols.kernelPagetable⟩ = none ∧
      ∀ w ∈ [K.symbols.perCoreData, K.perCore, K.perCore + pcdTecOffset + tecLastSpOffset],
        supervisorTrap s.tables ⟨.read, K.kernelPagetable, w⟩ = none := by
  have low := at_.low
  simp only [KernelCore.wordAddresses, List.cons_append, List.nil_append,
    List.forall_mem_cons] at low
  obtain ⟨root, data, self, -, slot, -⟩ := low
  constructor
  · apply supervisorTrap_read root
    intro i lt
    obtain ⟨walk, -, present⟩ := System.walk_of_run init run at_.root
      (K.symbols.kernelPagetable + i)
    rw [Nat.mod_eq_of_lt (by omega)] at walk present
    rw [walk]
    exact present (at_.image i lt)
  · intro w mem
    refine supervisorTrap_read ?_ (at_.mapped w mem)
    simp only [List.mem_cons, List.not_mem_nil, or_false] at mem
    rcases mem with rfl | rfl | rfl
    · exact data
    · exact self
    · exact slot

/-- For every run of the compartments, every compartment and every state of its registers at a
system call: the kernel stores nothing that the compartment could not store and takes no page fault
before it has its own stack, if and only if the compartment may write to the eight bytes below its
stack pointer, or they are no addresses at all. -/
theorem kernel_enter_no_deputy_iff (init : s₀.Initial) (run : Run (Event.Step P) s₀ events s)
    (at_ : AtSyscall P K s o m) :
    NoDeputy K.symbols E s.tables m ↔
      (∃ b ∈ (flagsPush m).bytes, canonical b = false) ∨
        UserMayWrite s.tables m.cr3 (flagsPush m) := by
  obtain ⟨rest, first⟩ := accesses_kernelEnter_cons (S := K.symbols) (E := E) (m := m)
  by_cases all : (flagsPush m).bytes.all canonical = true
  · have none : ¬ ∃ b ∈ (flagsPush m).bytes, canonical b = false := by
      rintro ⟨b, mem, no⟩
      rw [List.all_eq_true.mp all b mem] at no
      cases no
    rw [or_iff_right none]
    constructor
    · rintro ⟨stores, faults⟩
      rw [kernelEnterAccesses, first] at stores faults
      cases trap : supervisorTrap s.tables (flagsPush m) with
      | none => exact stores _ (mem_attempt trap) rfl
      | some t =>
          rw [attempt_of_trap trap] at faults
          rw [supervisorTrap, if_neg (by rw [all]; exact Bool.noConfusion)] at trap
          obtain ⟨-, fault⟩ := Option.ite_none_left_eq_some.mp trap
          cases fault
          exact absurd rfl faults
    · intro may
      have push := supervisorTrap_of_userMayWrite all may
      obtain ⟨root, kernel⟩ := at_.reads init run
      simp only [List.forall_mem_cons] at kernel
      obtain ⟨data, self, slot, -⟩ := kernel
      have made := accesses_kernelEnter (E := E) at_.task at_.words (at_.spared init run may)
      have free : ∀ a ∈ accesses E (kernelEnterUntilStack K.symbols) m,
          supervisorTrap s.tables a = .none := by
        rw [made]
        simp only [List.forall_mem_cons, push, root, data, self, slot, true_and]
        exact fun _ no => (List.not_mem_nil no).elim
      rw [NoDeputy, kernelEnterAccesses, attempt_eq free, made]
      refine ⟨?_, fun no => by cases no⟩
      intro a mem write
      simp only [List.mem_cons, List.not_mem_nil, or_false] at mem
      rcases mem with rfl | rfl | rfl | rfl | rfl
      · exact may
      all_goals cases write
  · have some : ∃ b ∈ (flagsPush m).bytes, canonical b = false := by
      rw [List.all_eq_true] at all
      push Not at all
      obtain ⟨b, mem, no⟩ := all
      exact ⟨b, mem, Bool.not_eq_true _ ▸ no⟩
    refine iff_of_true ?_ (.inl some)
    have trap : supervisorTrap s.tables (flagsPush m) = .some .notCanonical := by
      rw [supervisorTrap, if_pos (Bool.not_eq_true _ ▸ all)]
    rw [NoDeputy, kernelEnterAccesses, first, attempt_of_trap trap]
    exact ⟨fun _ no => (List.not_mem_nil no).elim, fun no => by cases no⟩

end Syscall

section Sample

/-- The first core of the small machine. Its kernel data lies in the image and behind it. -/
def deputyCore : KernelCore where
  symbols := ⟨0x2000, 0x2008, 0x2010, 0x1100, 0x1108, 0x1200, 0x1300, 0x1310⟩
  core := 0
  kernelPagetable := 0x1000
  perCoreData := 0x4000
  kernelTls := 0x5800
  stackBase := 0x10000
  stackTop := 0x20000
  rootBound := by decide
  tlsBound := by decide
  dataBound := by decide
  stackBound := by decide
  stackRoom := by decide

/-- The kernel's table maps the first large page. -/
def deputyBoot : System where
  tables :=
    { nodes := fun node i =>
        if i ≠ 0 then .null
        else if node = 0x1000 then ⟨0x6003⟩
        else if node = 0x6000 then ⟨0x7003⟩
        else if node = 0x7000 then ⟨0x83⟩
        else .null
      live := [0x1000, 0x6000, 0x7000] }
  ownership := .empty
  roots := fun _ => none
  handedOut := fun b => decide (b < 8)

theorem deputyBoot_initial : deputyBoot.Initial := ⟨fun _ => rfl, rfl⟩

/-- The compartment has set its stack pointer and makes a system call. -/
def deputyState (sp : Nat) : State where
  regs r := if r = rsp then sp else 0x202
  zero := false
  less := false
  cr2 := 0
  cr3 := 0x8000
  fsBase := 0
  gsBase := 0
  tr := 0x33
  memory a :=
    if a = 0x2000 then 0x1000 else if a = 0x2008 then 0x4000 else if a = 0x4000 then 0x4000
    else if a = 0x4028 then 0x5800 else 0

/-- What a system has to have for that. -/
def DeputyReady (s : System) : Prop :=
  s.roots ⟨1⟩ = some 0x8000 ∧
    (∀ w ∈ deputyCore.wordAddresses,
      OwnershipMap.getMonzaOwner smallPlatform.unit s.ownership w = .null) ∧
    ∀ w ∈ [0x2008, 0x4000, 0x4040], ∀ i < 8,
      (effectiveRights s.tables (w + i) pml4Level 0x1000).present = true

instance (s : System) : Decidable (DeputyReady s) := inferInstanceAs (Decidable (_ ∧ _ ∧ _))

theorem DeputyReady.atSyscall {s : System} (h : DeputyReady s) (sp : Nat) :
    AtSyscall smallPlatform deputyCore s ⟨1⟩ (deputyState sp) where
  root := h.1
  task := rfl
  words := ⟨rfl, rfl, rfl, rfl⟩
  unowned := h.2.1
  low := by decide
  image i lt := by
    refine ⟨⟨⟨0x2000, 0x3000⟩, .kernelWrite⟩, by decide, by decide, ?_⟩
    rw [AddressRange.overlaps_iff]
    show 0x2000 ≤ 0x2000 + i ∧ 0x2000 + i < 0x3000
    omega
  mapped := h.2.2

/-- A compartment with memory of its own pushes there. -/
theorem kernel_enter_no_deputy_own_stack : ∃ s,
    Run (Event.Step smallPlatform) deputyBoot [.create ⟨1⟩, .alloc ⟨1⟩ 0x4000 (some 0x40000)] s ∧
      AtSyscall smallPlatform deputyCore s ⟨1⟩ (deputyState 0x41000) ∧
      NoDeputy deputyCore.symbols KernelCore.sampleEnv s.tables (deputyState 0x41000) := by
  have done : (Event.simulate smallPlatform [.create ⟨1⟩, .alloc ⟨1⟩ 0x4000 (some 0x40000)]
      deputyBoot).map (fun s => decide (DeputyReady s ∧
        UserMayWrite s.tables 0x8000 (flagsPush (deputyState 0x41000)))) = some true := by
    decide +kernel
  obtain ⟨s, hs, facts⟩ := Option.map_eq_some_iff.mp done
  obtain ⟨ready, may⟩ := of_decide_eq_true facts
  have run := Event.simulate_run hs
  have at_ := ready.atSyscall 0x41000
  exact ⟨s, run, at_, (kernel_enter_no_deputy_iff deputyBoot_initial run at_).mpr (.inr may)⟩

/-- What the kernel accesses for a stack pointer of the compartment. -/
def deputyAccesses (s : System) (sp : Nat) : List Access × Option AccessTrap :=
  kernelEnterAccesses deputyCore.symbols KernelCore.sampleEnv s.tables (deputyState sp)

/-- One push lands on an interrupt stack, another one traps. -/
def DeputyPushes (s : System) : Prop :=
  (⟨.write, 0x8000, 0x10008⟩ ∈ (deputyAccesses s 0x10010).1 ∧
      ∀ i < 8, (effectiveRights s.tables (0x10008 + i) pml4Level 0x8000).user = false) ∧
    (deputyAccesses s 0x40008).2 = some .pageFault

instance (s : System) : Decidable (DeputyPushes s) := inferInstanceAs (Decidable ((_ ∧ _) ∧ _))

theorem DeputyPushes.deputy {s : System} (h : DeputyPushes s) :
    ¬ NoDeputy deputyCore.symbols KernelCore.sampleEnv s.tables (deputyState 0x10010) ∧
      ¬ NoDeputy deputyCore.symbols KernelCore.sampleEnv s.tables (deputyState 0x40008) := by
  obtain ⟨⟨stored, supervisor⟩, fault⟩ := h
  constructor
  · rintro ⟨stores, -⟩
    have may := congrArg Rights.user (stores _ stored rfl 0x10008 (by decide))
    exact Bool.noConfusion ((supervisor 0 (by decide)).symm.trans may)
  · exact fun ⟨_, faults⟩ => faults fault

/-- A new compartment has the kernel push to an interrupt stack, or to memory it does not have. -/
theorem kernel_enter_pushes_for_compartment : deputyBoot.Initial ∧ ∃ s,
    Run (Event.Step smallPlatform) deputyBoot [.create ⟨1⟩] s ∧
      AtSyscall smallPlatform deputyCore s ⟨1⟩ (deputyState 0x10010) ∧
      AtSyscall smallPlatform deputyCore s ⟨1⟩ (deputyState 0x40008) ∧ DeputyPushes s ∧
      ¬ NoDeputy deputyCore.symbols KernelCore.sampleEnv s.tables (deputyState 0x10010) ∧
      ¬ NoDeputy deputyCore.symbols KernelCore.sampleEnv s.tables (deputyState 0x40008) := by
  have done : (Event.simulate smallPlatform [.create ⟨1⟩] deputyBoot).map (fun s =>
      decide (DeputyReady s ∧ DeputyPushes s)) = some true := by
    decide +kernel
  obtain ⟨s, hs, facts⟩ := Option.map_eq_some_iff.mp done
  obtain ⟨ready, pushes⟩ := of_decide_eq_true facts
  exact ⟨deputyBoot_initial, s, Event.simulate_run hs, ready.atSyscall _, ready.atSyscall _,
    pushes, pushes.deputy⟩

end Sample

end Monza
