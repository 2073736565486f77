import Monza.Entry.Frames

/-!
# What the macros of the entry code do

Triples for the macros: the switch of tables by the code segment that was pushed, the reset of `gs`
from the task register and the load of `fs` through the per-core data.
-/

namespace Monza

open X86 X86.Reg Asm

namespace KernelCore

variable {K : KernelCore} {E : Env CppFunction StackTrap} {s : State} {k : Context}

/-- The requirement on everything seen. -/
def Good (K : KernelCore) (o : Sighting KernelData CppFunction) : Prop :=
  o.context.cr3 = K.kernelPagetable ∧ o.context.gsBase = K.perCore ∧
    ∀ f, o.what = .call f → o.context.fsBase = K.kernelTls

/-- Everything the kernel needs in place. -/
def kernelContext (K : KernelCore) : Context := ⟨K.kernelPagetable, K.perCore, K.kernelTls⟩

/-- The whole context of the kernel is in place. -/
def InKernel (K : KernelCore) (s : State) : Prop := s.context = K.kernelContext

theorem good_kernelContext (w : Seen KernelData CppFunction) : K.Good ⟨w, K.kernelContext⟩ :=
  ⟨rfl, rfl, fun _ _ => rfl⟩

/-- The arithmetic of `reset_per_core_pointer`. -/
theorem perCore_of_taskRegister (K : KernelCore) :
    word (word (word (word (word K.taskRegister + 2 ^ 64 - 0x33) >>> 4) <<< 7) + K.perCoreData) =
      K.perCore := by
  have := K.dataBound
  simp only [word, taskRegister, perCore, Nat.shiftRight_eq_div_pow, Nat.shiftLeft_eq]
  omega

variable {good : Sighting KernelData CppFunction → Prop} {Q : (Nat → Nat) → Nat → Prop}
variable {cs offset : Nat}

theorem resetPerCorePointer_spec :
    Spec E good (K.In k) (.block (resetPerCorePointer K.symbols))
      (K.In { k with gsBase := K.perCore }) := by
  refine .block fun s h => ?_
  obtain ⟨task, words, rfl⟩ := h
  have pointer := K.perCore_of_taskRegister
  simp [resetPerCorePointer, task, words.data, pcdLog2Size] at pointer ⊢
  exact ⟨task, words, congrArg (fun gs => { s.context with gsBase := gs }) pointer⟩

/-- A core that has its own `gs` finds its execution context under the kernel's table. -/
theorem threadExecutionContextEntry_spec (root : k.cr3 = K.kernelPagetable)
    (gs : k.gsBase = K.perCore) :
    Spec E K.Good (K.In k) (.block (getThreadExecutionContextEntry r10))
      (fun s => K.In k s ∧ s.regs r10 = K.perCore + pcdTecOffset) := by
  refine .block fun s h => ?_
  have := K.dataBound
  have hgs : s.gsBase = K.perCore := (congrArg Context.gsBase h.context).trans gs
  have hself : word K.perCore = K.perCore := word_of_lt (by unfold perCore; omega)
  have htec : word (K.perCore + 0x18) = K.perCore + 0x18 := word_of_lt (by unfold perCore; omega)
  simp [getThreadExecutionContextEntry, getPerCoreDataAddress, pcdSelfOffset, pcdTecOffset, hgs,
    hself, h.words.self, htec, State.sighting, h.context, Good, root, gs]
  exact h.outer rfl rfl rfl

/-- `fs` is loaded through the per-core data. -/
theorem setTlsBase_spec (root : k.cr3 = K.kernelPagetable) (gs : k.gsBase = K.perCore) :
    Spec E K.Good (fun s => K.In k s ∧ s.regs r10 = K.perCore + pcdTecOffset)
      (.block [.mov rax (.place (coreData r10 tecTlsOffset)), .wrfsbase rax])
      K.InKernel := by
  refine .block fun s ⟨h, hr10⟩ => ?_
  obtain ⟨task, words, rfl⟩ := h
  have := K.dataBound
  have htls : word (K.perCore + 0x28) = K.perCore + 0x28 := word_of_lt (by unfold perCore; omega)
  have hvalue : word K.kernelTls = K.kernelTls := word_of_lt K.tlsBound
  simp [hr10, pcdTecOffset, tecTlsOffset, htls, words.tls, hvalue, State.sighting, Good, root, gs]
  exact congrArg₂ (fun r g => (⟨r, g, K.kernelTls⟩ : Context)) root gs

/-- In a gate with a status or a zero in its place, and a frame that names the code segment `cs`. -/
abbrev Framed (K : KernelCore) (k : Context) (cs : Nat) : State → Prop :=
  K.On k fun memory sp => sp + 0x30 = K.stackTop ∧ memory (sp + intCsOffset) = cs

theorem Framed.of_top {w₀ w₁ w₃ w₄ w₅ : Nat} (h : Top K k [w₀, w₁, cs, w₃, w₄, w₅] s) :
    K.Framed k cs s :=
  ⟨h.inside, h.stack.pointer, h.stack.stored 2 (by simp)⟩

theorem saveRegs_spec (sound : K.Sound E) :
    Spec E good (K.Framed k cs) (.block saveRegs)
      (K.On k fun memory sp => memory (word (sp + (trapRegsEnd + intCsOffset))) = cs) := by
  have := K.stackBound
  have := K.stackRoom
  have saved : Spec E good (K.Framed k cs) (.block saveRegs) (K.On k fun memory sp =>
      sp + 0xA8 = K.stackTop ∧ memory (sp + 0x88) = cs) := by
    refine .seq (.instr fun s h => ?_) (.block_invariant fun i hi => .instr fun s h => ?_)
    · obtain ⟨inside, top, segment⟩ := h
      have lower : (Instr.effect E (.alu .sub rsp (imm trapRegsEnd) : Asm) s).regs rsp =
          s.regs rsp - 0x78 := by
        simp [trapRegsEnd, word]
        omega
      have place : s.regs rsp - 0x78 + 0x88 = s.regs rsp + intCsOffset := by
        unfold intCsOffset
        omega
      refine ⟨rfl, by simp, inside.outer rfl rfl rfl, ?_⟩
      rw [lower, place]
      exact ⟨by omega, segment⟩
    · obtain ⟨slot, mem, rfl⟩ := List.mem_map.mp hi
      have slots : ∀ slot ∈ trapSlots, slot.1 < 0x78 := by decide
      have inSlots := slots slot mem
      obtain ⟨inside, top, segment⟩ := h
      have address : word (s.regs rsp + slot.1) = s.regs rsp + slot.1 := word_of_lt (by omega)
      have other : s.regs rsp + 0x88 ≠ s.regs rsp + slot.1 := by omega
      refine ⟨rfl, by simp, ?_⟩
      simp only [Instr.effect, State.address, address]
      refine ⟨inside.put _ (sound.notMem_of_stack (by omega) (by omega)), top, ?_⟩
      simpa [Function.update_of_ne other] using segment
  refine saved.weaken (fun _ h => h) fun s h => ⟨h.inside, ?_⟩
  have address : word (s.regs rsp + (trapRegsEnd + intCsOffset)) = s.regs rsp + 0x88 :=
    word_of_lt (by have := h.stack.1; unfold trapRegsEnd intCsOffset; omega)
  rw [address, h.stack.2]

/-- The low bits of a code segment are the privilege level it was used with. -/
theorem privilege_eq (cs : Nat) : word cs &&& 3 = cs % 4 := by
  rw [show 3 = 2 ^ 2 - 1 from rfl, Nat.and_two_pow_sub_one_eq_mod, word]
  exact Nat.mod_mod_of_dvd cs (by decide)

/-- The start of both macros that switch tables. -/
theorem testPrivilege_spec (r : Reg) (scratch : rsp ≠ r)
    (look : ∀ memory sp, Q memory sp → memory (word (sp + offset)) = cs) :
    Spec E good (K.On k Q) (.block [.mov r (mem rsp offset), .alu .and r (imm 3), .test r])
      (fun s => K.On k Q s ∧ s.zero = decide (cs % 4 = 0)) := by
  refine .block fun s h => ?_
  have small : word (cs % 4) = cs % 4 := word_of_lt (by omega)
  simp [look _ _ h.stack, privilege_eq, small]
  exact ⟨h.outer rfl rfl rfl (by simp [scratch]), beq_eq_decide _ _⟩

/-- Their branch: `stay` for an entry from the kernel, `switch` otherwise. -/
theorem switch_spec {Q R : State → Prop} {stay switch : Routine}
    (kernel : cs % 4 = 0 → Spec E good Q stay R) (user : cs % 4 ≠ 0 → Spec E good Q switch R) :
    Spec E good (fun s => Q s ∧ s.zero = decide (cs % 4 = 0)) (.ite .zero stay switch) R := by
  by_cases h : cs % 4 = 0
  · refine .ite ((kernel h).weaken (fun _ h => h.1.1) fun _ h => h)
      (.absurd fun s ⟨⟨_, hz⟩, hold⟩ => ?_)
    simp [hz, h] at hold
  · refine .ite (.absurd fun s ⟨⟨_, hz⟩, hold⟩ => ?_)
      ((user h).weaken (fun _ h => h.1.1) fun _ h => h)
    simp [hz, h] at hold

/-- The table that is installed after a switch on an entry with code segment `cs`. -/
def rootFor (K : KernelCore) (cs root : Nat) : Nat := if cs % 4 = 0 then root else K.kernelPagetable

theorem loadKernelCr3_spec : Spec E good (K.On k Q)
    (.block [.mov rax (var K.symbols.kernelPagetable), .writeCr3 rax])
    (K.On { k with cr3 := K.kernelPagetable } Q) := by
  refine .block fun s h => ?_
  obtain ⟨⟨task, words, rfl⟩, stack⟩ := h
  have root : word K.kernelPagetable = K.kernelPagetable := word_of_lt K.rootBound
  simp [words.root, root]
  exact ⟨⟨task, words, rfl⟩, stack⟩

section Switch

variable (look : ∀ memory sp, Q memory sp → memory (word (sp + offset)) = cs)

include look

theorem setKernelCr3_spec :
    Spec E good (K.On k Q) (setKernelCr3 K.symbols offset)
      (K.On { k with cr3 := K.rootFor cs k.cr3 } Q) := by
  refine (testPrivilege_spec rax (by decide) look).seq
    (switch_spec (fun kernel => ?_) fun user => ?_)
  · rw [rootFor, if_pos kernel]
    exact .skip fun _ h => h
  · rw [rootFor, if_neg user]
    exact loadKernelCr3_spec

theorem swapKernelCr3_spec :
    Spec E good (K.On k Q) (swapKernelCr3 K.symbols rbx offset)
      (K.On { k with cr3 := K.rootFor cs k.cr3 } Q) := by
  refine (testPrivilege_spec rbx (by decide) look).seq
    (switch_spec (fun kernel => ?_) fun user => ?_)
  · rw [rootFor, if_pos kernel]
    exact .block fun s h => ⟨rfl, by simp, h.outer rfl rfl rfl rfl⟩
  · rw [rootFor, if_neg user]
    exact .seq (.instr fun s h => ⟨rfl, by simp, h.outer rfl rfl rfl rfl⟩) loadKernelCr3_spec

end Switch

/-- The gates that print look for the code segment in the third word. -/
theorem setKernelCr3_frame {w₀ w₁ : Nat} {words : List Nat} :
    Spec E good (Top K k (w₀ :: w₁ :: cs :: words)) (setKernelCr3 K.symbols intCsOffset)
      (Top K { k with cr3 := K.rootFor cs k.cr3 } (w₀ :: w₁ :: cs :: words)) :=
  setKernelCr3_spec fun _ _ h => h.read (i := 2) (by simp)

/-- The prelude up to the reset of `gs`. -/
theorem preludeStart_spec (sound : K.Sound E) :
    Spec E good (K.Framed k cs)
      (.seq (.block saveRegs) (swapKernelCr3 K.symbols rbx (trapRegsEnd + intCsOffset)))
      (K.In { k with cr3 := K.rootFor cs k.cr3 }) :=
  (saveRegs_spec sound).seq
    ((swapKernelCr3_spec fun _ _ h => h).weaken (fun _ h => h) fun _ h => h.inside)

/-- The prelude behind the switch of tables. -/
def preludeContext (S : Symbols) : List Asm :=
  resetPerCorePointer S ++ [.rdfsbase rbp] ++ getThreadExecutionContextEntry r10 ++
    [.mov rax (.place (coreData r10 tecTlsOffset)), .wrfsbase rax]

theorem resetKeepingTls_spec :
    Spec E good (K.In k) (.block (resetPerCorePointer K.symbols ++ [.rdfsbase rbp]))
      (K.In { k with gsBase := K.perCore }) :=
  .block_append resetPerCorePointer_spec
    (.block fun s h => ⟨rfl, by simp, h.outer rfl rfl rfl⟩)

theorem preludeContext_spec (root : k.cr3 = K.kernelPagetable) :
    Spec E K.Good (K.In k) (.block (preludeContext K.symbols))
      K.InKernel :=
  .block_append (.block_append resetKeepingTls_spec
    (threadExecutionContextEntry_spec root rfl)) (setTlsBase_spec root rfl)

theorem trap_eq_none_of_kernelContext (sound : K.Sound E) (i : Asm)
    (hs : K.InKernel s) : i.trap E s = none := by
  cases i with
  | push src =>
      have root : s.cr3 = K.kernelPagetable := congrArg Context.cr3 hs
      simp only [Instr.trap, root, sound.kernelPush]
  | _ => rfl

/-- Every table maps the interrupt stack. -/
theorem push_of_top (sound : K.Sound E) {words : List Nat} (h : Top K k words s)
    (short : words.length < 0x100) (src : Operand KernelData) :
    (Instr.push src : Asm).trap E s = none ∧
      Top K k (s.value src :: words) ((Instr.push src : Asm).effect E s) := by
  have pointer := h.stack.pointer
  have top := K.stackBound
  have room := K.stackRoom
  have address : s.pushAddress = s.regs rsp - 8 := State.pushAddress_eq (by omega) (by omega)
  simp only [Instr.trap, Instr.effect, address]
  exact ⟨sound.stackPush _ _ (by omega) (by omega), h.push sound short _⟩

/-- A gate without status pushes a zero in its place. -/
theorem pushStatus_spec (sound : K.Sound E) {words : List Nat} (short : words.length < 0x100) :
    Spec E good (Top K k words) (.block [.push (imm 0)]) (Top K k (0 :: words)) := by
  refine .block fun s h => ?_
  obtain ⟨free, pushed⟩ := push_of_top sound h short (imm 0)
  exact ⟨free, by simp, pushed⟩

/-- The system call up to the kernel's table, once the first push went through. -/
theorem kernelEnterStart_spec (sound : K.Sound E) (foreign : k.cr3 ≠ K.kernelPagetable) :
    Spec E good
      (fun s => K.In k s ∧ E.pushTrap s.cr3 s.pushAddress = none)
      (.block [.push (reg r11), .mov rcx (reg r10), .mov rax (var K.symbols.kernelPagetable),
        .writeCr3 rax])
      (K.In { k with cr3 := K.kernelPagetable }) := by
  have load : Spec E good (K.In k) (.block [.mov rax (var K.symbols.kernelPagetable),
      .writeCr3 rax]) (K.In { k with cr3 := K.kernelPagetable }) :=
    (loadKernelCr3_spec (Q := fun _ _ => True)).weaken (fun _ h => ⟨h, trivial⟩) fun _ h => h.inside
  refine .seq (.instr fun s ⟨h, free⟩ => ⟨free, by simp, ?_⟩)
    (.seq (.instr fun s h => ⟨rfl, by simp, In.outer h rfl rfl rfl⟩) load)
  have root : s.cr3 ≠ K.kernelPagetable := (congrArg Context.cr3 h.context).trans_ne foreign
  have stored := h.put (s.regs r11) (sound.compartmentPush s.cr3 _ root free)
  simp only [Instr.effect, State.value]
  exact stored.outer rfl rfl rfl

/-- The stack of the kernel is found through the execution context. -/
theorem switchStack_spec (root : k.cr3 = K.kernelPagetable) (gs : k.gsBase = K.perCore) :
    Spec E K.Good (fun s => K.In k s ∧ s.regs r10 = K.perCore + pcdTecOffset)
      (.block [.mov r11 (reg rsp), .mov rsp (.place (coreData r10 tecLastSpOffset))])
      (fun s => K.In k s ∧ s.regs r10 = K.perCore + pcdTecOffset) := by
  refine .block fun s ⟨h, hr10⟩ => ?_
  have context : (s.set r11 (s.regs rsp)).context = k := h.context
  simp [State.sighting, context, Good, root, gs, hr10]
  exact h.outer rfl rfl rfl

theorem kernelEnterContext_spec (root : k.cr3 = K.kernelPagetable) :
    Spec E K.Good (K.In k) (.block (kernelEnterContext K.symbols))
      K.InKernel := by
  have last := (switchStack_spec (E := E) (k := { k with gsBase := K.perCore }) root rfl)
  exact .block_append (.block_append resetPerCorePointer_spec
    (threadExecutionContextEntry_spec root rfl)) (.block_append last (setTlsBase_spec root rfl))

end KernelCore

end Monza
