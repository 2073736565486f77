import Mathlib.Logic.Function.Basic
import Mathlib.Data.List.Basic
import Mathlib.Tactic.Ring

/-!
# Assembly code and what is seen while it runs

A fragment of x86-64 assembly: general registers, the base registers of `fs` and `gs`,
the page table register and a memory of 64-bit words. Jumps within a routine are
structured branches. A push can trap; calls have an arbitrary effect.

Code is watched while it runs. Accesses relative to `gs`, accesses to operands that
carry a label and calls each leave a sighting, which records the page table and both
base registers at that moment. `Spec` is a Hoare triple that also speaks about every
sighting made on the way.
-/

namespace X86

inductive Reg where
  | rax | rbx | rcx | rdx | rsi | rdi | rbp | rsp
  | r8 | r9 | r10 | r11 | r12 | r13 | r14 | r15
  deriving DecidableEq, Repr

structure State where
  regs : Reg → Nat
  zero : Bool
  less : Bool
  cr2 : Nat
  cr3 : Nat
  fsBase : Nat
  gsBase : Nat
  tr : Nat
  memory : Nat → Nat

variable {τ φ ρ : Type}

/-- Operands in memory; `watched` ones belong to the data named by their label. -/
inductive Place (τ : Type) where
  | fixed (address : Nat)
  | based (base : Reg) (offset : Nat)
  | watched (label : τ) (base : Reg) (offset : Nat)
  | gs (offset : Nat)

inductive Operand (τ : Type) where
  | reg (r : Reg)
  | imm (n : Nat)
  | place (p : Place τ)

inductive Alu where
  | add | sub | and | xor | shl | shr
  deriving DecidableEq, Repr

inductive Instr (τ φ : Type) where
  | mov (dst : Reg) (src : Operand τ)
  | store (dst : Place τ) (src : Operand τ)
  | alu (op : Alu) (dst : Reg) (src : Operand τ)
  | inc (dst : Place τ)
  | test (r : Reg)
  | cmp (r : Reg) (src : Operand τ)
  | push (src : Operand τ)
  | pop (dst : Reg)
  | popf
  | readCr2 (dst : Reg)
  | readCr3 (dst : Reg)
  | writeCr3 (src : Reg)
  | str (dst : Reg)
  | rdfsbase (dst : Reg)
  | wrfsbase (src : Reg)
  | wrgsbase (src : Reg)
  | call (f : φ)

/-- Conditions of the jumps, true where the code jumps. -/
inductive Cond where
  | zero | notZero | less | notLess
  deriving DecidableEq, Repr

inductive Code (τ φ : Type) where
  | skip
  | instr (i : Instr τ φ)
  | seq (a b : Code τ φ)
  | ite (c : Cond) (yes no : Code τ φ)
  | leave
  | jump (target : Nat)

def Code.block : List (Instr τ φ) → Code τ φ
  | [] => .skip
  | i :: is => .seq (.instr i) (.block is)

/-- What a sighting is of. -/
inductive Seen (τ φ : Type) where
  | gs
  | data (label : τ)
  | call (f : φ)
  deriving DecidableEq, Repr

/-- The registers that decide what an address means and whose data it finds. -/
structure Context where
  cr3 : Nat
  gsBase : Nat
  fsBase : Nat
  deriving DecidableEq, Repr

structure Sighting (τ φ : Type) where
  what : Seen τ φ
  context : Context
  deriving DecidableEq, Repr

/-- Control leaves by a return, or by a jump out of the routine. -/
inductive Status (ρ : Type) where
  | running
  | left
  | jumped (target : Nat)
  | trapped (trap : ρ)
  deriving DecidableEq, Repr

/-- The environment: traps of pushes by page table and address, effects of calls. -/
structure Env (φ ρ : Type) where
  pushTrap : Nat → Nat → Option ρ
  callee : φ → State → State

structure Config (τ φ ρ : Type) where
  state : State
  log : List (Sighting τ φ)
  status : Status ρ

def word (n : Nat) : Nat := n % 2 ^ 64

@[simp] theorem word_word (n : Nat) : word (word n) = word n := Nat.mod_mod _ _

namespace State

@[simps] def set (s : State) (r : Reg) (n : Nat) : State :=
  { s with regs := Function.update s.regs r (word n) }

@[simps] def put (s : State) (a n : Nat) : State :=
  { s with memory := Function.update s.memory a n }

@[simps] def setFlags (s : State) (zero less : Bool) : State :=
  { s with zero := zero, less := less }

@[simps] def setCr3 (s : State) (n : Nat) : State := { s with cr3 := n }

@[simps] def setFs (s : State) (n : Nat) : State := { s with fsBase := n }

@[simps] def setGs (s : State) (n : Nat) : State := { s with gsBase := n }

@[simp] def address (s : State) : Place τ → Nat
  | .fixed a => a
  | .based r offset => word (s.regs r + offset)
  | .watched _ r offset => word (s.regs r + offset)
  | .gs offset => word (s.gsBase + offset)

@[simp] def value (s : State) : Operand τ → Nat
  | .reg r => s.regs r
  | .imm n => n
  | .place p => s.memory (s.address p)

@[simp] def holds (s : State) : Cond → Bool
  | .zero => s.zero
  | .notZero => !s.zero
  | .less => s.less
  | .notLess => !s.less

/-- Where a push stores its operand. -/
def pushAddress (s : State) : Nat := word (s.regs .rsp + 2 ^ 64 - 8)

def context (s : State) : Context := ⟨s.cr3, s.gsBase, s.fsBase⟩

def sighting (s : State) (what : Seen τ φ) : Sighting τ φ := ⟨what, s.context⟩

end State

@[simp] def Alu.eval : Alu → Nat → Nat → Nat
  | add, a, b => a + b
  | sub, a, b => a + 2 ^ 64 - b
  | and, a, b => a &&& b
  | xor, a, b => a ^^^ b
  | shl, a, b => a <<< b
  | shr, a, b => a >>> b

/-- A 64-bit word read as a signed number. -/
def signed (n : Nat) : Int := if n < 2 ^ 63 then n else n - 2 ^ 64

@[simp] def Place.seen : Place τ → List (Seen τ φ)
  | fixed _ => []
  | based _ _ => []
  | watched label _ _ => [.data label]
  | gs _ => [.gs]

@[simp] def Operand.seen : Operand τ → List (Seen τ φ)
  | reg _ => []
  | imm _ => []
  | place p => p.seen

namespace Instr

@[simp] def seen : Instr τ φ → List (Seen τ φ)
  | mov _ src => src.seen
  | store dst src => src.seen ++ dst.seen
  | alu _ _ src => src.seen
  | inc dst => dst.seen
  | cmp _ src => src.seen
  | push src => src.seen
  | call f => [.call f]
  | _ => []

/-- The effect of an instruction that does not trap. -/
@[simp] def effect (E : Env φ ρ) : Instr τ φ → State → State
  | mov dst src, s => s.set dst (s.value src)
  | store dst src, s => s.put (s.address dst) (s.value src)
  | alu op dst src, s =>
      let n := word (op.eval (s.regs dst) (s.value src))
      (s.set dst n).setFlags (n == 0) (decide (signed n < 0))
  | inc dst, s => s.put (s.address dst) (word (s.memory (s.address dst) + 1))
  | test r, s => s.setFlags (s.regs r == 0) (decide (signed (s.regs r) < 0))
  | cmp r src, s =>
      s.setFlags (s.regs r == s.value src) (decide (signed (s.regs r) < signed (s.value src)))
  | push src, s => (s.put s.pushAddress (s.value src)).set .rsp s.pushAddress
  | pop dst, s => (s.set .rsp (s.regs .rsp + 8)).set dst (s.memory (s.regs .rsp))
  | popf, s =>
      -- `less` compares the sign and overflow bits
      let flags := s.memory (s.regs .rsp)
      (s.set .rsp (s.regs .rsp + 8)).setFlags (flags.testBit 6)
        (flags.testBit 7 != flags.testBit 11)
  | readCr2 dst, s => s.set dst s.cr2
  | readCr3 dst, s => s.set dst s.cr3
  | writeCr3 src, s => s.setCr3 (s.regs src)
  | str dst, s => s.set dst s.tr
  | rdfsbase dst, s => s.set dst s.fsBase
  | wrfsbase src, s => s.setFs (s.regs src)
  | wrgsbase src, s => s.setGs (s.regs src)
  | call f, s => E.callee f s

/-- The trap of an instruction, raised before it has any effect. -/
@[simp] def trap (E : Env φ ρ) : Instr τ φ → State → Option ρ
  | push _, s => E.pushTrap s.cr3 s.pushAddress
  | _, _ => none

/-- The instruction leaves the context alone, whatever the environment does. -/
def steady : Instr τ φ → Bool
  | writeCr3 _ => false
  | wrfsbase _ => false
  | wrgsbase _ => false
  | call _ => false
  | _ => true

theorem effect_context {E : Env φ ρ} {i : Instr τ φ} (h : i.steady = true) (s : State) :
    (i.effect E s).context = s.context := by
  cases i with
  | writeCr3 => cases h
  | wrfsbase => cases h
  | wrgsbase => cases h
  | call => cases h
  | _ => rfl

theorem seen_of_steady {i : Instr τ φ} (h : i.steady = true) {w : Seen τ φ} (hw : w ∈ i.seen)
    (f : φ) : w ≠ .call f := by
  have place : ∀ p : Place τ, ∀ w ∈ (p.seen : List (Seen τ φ)), w ≠ .call f := by
    intro p w hw
    cases p <;> simp_all
  have operand : ∀ o : Operand τ, ∀ w ∈ (o.seen : List (Seen τ φ)), w ≠ .call f := by
    intro o w hw
    cases o with
    | place p => exact place p w hw
    | _ => cases hw
  cases i with
  | call => cases h
  | mov dst src => exact operand src w hw
  | store dst src => exact (List.mem_append.mp hw).elim (operand src w) (place dst w)
  | alu op dst src => exact operand src w hw
  | inc dst => exact place dst w hw
  | cmp r src => exact operand src w hw
  | push src => exact operand src w hw
  | _ => cases hw

def canTrap : Instr τ φ → Bool
  | push _ => true
  | _ => false

theorem trap_eq_none {E : Env φ ρ} {i : Instr τ φ} (h : i.canTrap = false) (s : State) :
    i.trap E s = none := by
  cases i with
  | push => cases h
  | _ => rfl

end Instr

/-- Run code from a running configuration; anything else is left as it is. -/
def Code.exec (E : Env φ ρ) : Code τ φ → Config τ φ ρ → Config τ φ ρ
  | skip, c => c
  | instr i, c =>
      if c.status matches .running then
        let log := c.log ++ i.seen.map c.state.sighting
        match i.trap E c.state with
        | some t => ⟨c.state, log, .trapped t⟩
        | none => ⟨i.effect E c.state, log, .running⟩
      else c
  | seq a b, c => b.exec E (a.exec E c)
  | ite cond yes no, c => if c.state.holds cond then yes.exec E c else no.exec E c
  | leave, c => if c.status matches .running then { c with status := .left } else c
  | jump target, c => if c.status matches .running then { c with status := .jumped target } else c

variable {E : Env φ ρ} {c : Config τ φ ρ} {s : State}

theorem word_of_lt {n : Nat} (h : n < 2 ^ 64) : word n = n := Nat.mod_eq_of_lt h

theorem State.pushAddress_eq (above : 8 ≤ s.regs .rsp) (below : s.regs .rsp < 2 ^ 64) :
    s.pushAddress = s.regs .rsp - 8 := by
  unfold pushAddress word
  omega

theorem Code.exec_of_not_running (code : Code τ φ) (h : c.status ≠ .running) :
    code.exec E c = c := by
  have idle : ¬ (c.status matches .running) = true := by
    cases hs : c.status with
    | running => exact absurd hs h
    | _ => exact Bool.false_ne_true
  induction code with
  | skip => rfl
  | instr i => exact if_neg idle
  | seq a b iha ihb => rw [exec, iha, ihb]
  | ite cond yes no ihy ihn => rw [exec, ihy, ihn, ite_self]
  | leave => exact if_neg idle
  | jump target => exact if_neg idle

theorem Code.exec_seq_of_trapped {a : Code τ φ} (b : Code τ φ) {log : List (Sighting τ φ)} {t : ρ}
    (h : a.exec E c = ⟨s, log, .trapped t⟩) : (seq a b).exec E c = ⟨s, log, .trapped t⟩ := by
  rw [exec, h, exec_of_not_running b (by simp)]

theorem Code.exec_instr (i : Instr τ φ) (log : List (Sighting τ φ)) :
    (Code.instr i).exec E ⟨s, log, .running⟩ =
      match i.trap E s with
      | some t => ⟨s, log ++ i.seen.map s.sighting, .trapped t⟩
      | none => ⟨i.effect E s, log ++ i.seen.map s.sighting, .running⟩ := rfl

theorem Code.exec_seq (a b : Code τ φ) : (seq a b).exec E c = b.exec E (a.exec E c) := rfl

/-- What was seen stays seen. -/
theorem Code.log_subset (code : Code τ φ) : c.log ⊆ (code.exec E c).log := by
  induction code generalizing c with
  | skip => exact List.Subset.refl _
  | instr i =>
      rw [exec]
      split
      · cases i.trap E c.state <;> exact List.subset_append_left _ _
      · exact List.Subset.refl _
  | seq a b iha ihb => exact List.Subset.trans iha ihb
  | ite cond yes no ihy ihn =>
      rw [exec]
      split
      · exact ihy
      · exact ihn
  | leave =>
      rw [exec]
      split <;> exact List.Subset.refl _
  | jump target =>
      rw [exec]
      split <;> exact List.Subset.refl _

theorem Code.exec_block_append (is js : List (Instr τ φ)) :
    (Code.block (is ++ js)).exec E c = (Code.block js).exec E ((Code.block is).exec E c) := by
  induction is generalizing c with
  | nil => rfl
  | cons i is ih => exact ih

/-- From a state that meets `pre`, the code does not trap, everything seen while it runs is
`good`, and if it runs to its end, it ends in a state that meets `post`. -/
def Spec (E : Env φ ρ) (good : Sighting τ φ → Prop) (pre : State → Prop) (code : Code τ φ)
    (post : State → Prop) : Prop :=
  ∀ s log, pre s → (∀ o ∈ log, good o) →
    (∀ o ∈ (code.exec E ⟨s, log, .running⟩).log, good o) ∧
    (∀ t, (code.exec E ⟨s, log, .running⟩).status ≠ .trapped t) ∧
    ((code.exec E ⟨s, log, .running⟩).status = .running →
      post (code.exec E ⟨s, log, .running⟩).state)

namespace Spec

variable {good : Sighting τ φ → Prop} {pre mid post : State → Prop}
variable {a b yes no code : Code τ φ} {i : Instr τ φ} {is : List (Instr τ φ)} {cond : Cond}

theorem skip (h : ∀ s, pre s → post s) : Spec E good pre .skip post :=
  fun s _ hs hlog => ⟨hlog, (fun _ h => nomatch h), fun _ => h s hs⟩

theorem seq (first : Spec E good pre a mid) (second : Spec E good mid b post) :
    Spec E good pre (.seq a b) post := by
  intro s log hs hlog
  obtain ⟨hseen, htrap, hmid⟩ := first s log hs hlog
  rw [Code.exec]
  generalize hd : a.exec E ⟨s, log, .running⟩ = d at hseen htrap hmid
  obtain ⟨t, seen, status⟩ := d
  cases status with
  | running => exact second t seen (hmid rfl) hseen
  | trapped r => exact absurd rfl (htrap r)
  | _ =>
      rw [Code.exec_of_not_running b (by simp)]
      exact ⟨hseen, htrap, (fun h => nomatch h)⟩

theorem ite (whenYes : Spec E good (fun s => pre s ∧ s.holds cond = true) yes post)
    (whenNo : Spec E good (fun s => pre s ∧ s.holds cond = false) no post) :
    Spec E good pre (.ite cond yes no) post := by
  intro s log hs hlog
  rw [Code.exec]
  cases h : s.holds cond with
  | true => exact whenYes s log ⟨hs, h⟩ hlog
  | false => exact whenNo s log ⟨hs, h⟩ hlog

theorem instr (h : ∀ s, pre s → i.trap E s = none ∧ (∀ w ∈ i.seen, good (s.sighting w)) ∧
    post (i.effect E s)) : Spec E good pre (.instr i) post := by
  intro s log hs hlog
  obtain ⟨htrap, hseen, heffect⟩ := h s hs
  simp only [Code.exec_instr, htrap]
  refine ⟨fun o ho => ?_, (fun _ h => nomatch h), fun _ => heffect⟩
  rcases List.mem_append.mp ho with ho | ho
  · exact hlog o ho
  · obtain ⟨w, hw, rfl⟩ := List.mem_map.mp ho
    exact hseen w hw

theorem leave : Spec E good pre .leave post :=
  fun _ _ _ hlog => ⟨hlog, (fun _ h => nomatch h), (fun h => nomatch h)⟩

theorem jump {target : Nat} : Spec E good pre (.jump target) post :=
  fun _ _ _ hlog => ⟨hlog, (fun _ h => nomatch h), (fun h => nomatch h)⟩

theorem assoc {d : Code τ φ} (h : Spec E good pre (.seq (.seq a b) d) post) :
    Spec E good pre (.seq a (.seq b d)) post := h

theorem absurd (h : ∀ s, ¬ pre s) : Spec E good pre code post :=
  fun s _ hs => (h s hs).elim

theorem weaken {pre' post' : State → Prop} (h : Spec E good pre code post)
    (hpre : ∀ s, pre' s → pre s) (hpost : ∀ s, post s → post' s) :
    Spec E good pre' code post' := by
  intro s log hs hlog
  obtain ⟨hseen, htrap, hend⟩ := h s log (hpre s hs) hlog
  exact ⟨hseen, htrap, fun hr => hpost _ (hend hr)⟩

/-- What has to hold before a block for `post` to hold behind it. -/
@[simp] def before (E : Env φ ρ) (good : Sighting τ φ → Prop) (post : State → Prop) :
    List (Instr τ φ) → State → Prop
  | [], s => post s
  | i :: is, s =>
      i.trap E s = none ∧ (∀ w ∈ i.seen, good (s.sighting w)) ∧ before E good post is (i.effect E s)

theorem block (h : ∀ s, pre s → before E good post is s) : Spec E good pre (.block is) post := by
  induction is generalizing pre with
  | nil => exact .skip h
  | cons i is ih =>
      exact .seq (.instr h) (ih fun _ h => h)

theorem block_append {is js : List (Instr τ φ)} (first : Spec E good pre (.block is) mid)
    (second : Spec E good mid (.block js) post) : Spec E good pre (.block (is ++ js)) post := by
  intro s log hs hlog
  rw [Code.exec_block_append]
  exact (first.seq second) s log hs hlog

/-- What every instruction of a block keeps. -/
theorem block_invariant (h : ∀ i ∈ is, Spec E good pre (.instr i) pre) :
    Spec E good pre (.block is) pre := by
  induction is with
  | nil => exact .skip fun _ h => h
  | cons i is ih =>
      obtain ⟨first, rest⟩ := List.forall_mem_cons.mp h
      exact .seq first (ih rest)

/-- A block of steady instructions stays in one context. -/
theorem steady {K : Context} (seen : ∀ w, good ⟨w, K⟩) (steady : ∀ i ∈ is, i.steady = true)
    (trap : ∀ i ∈ is, ∀ s, s.context = K → i.trap E s = none) :
    Spec E good (fun s => s.context = K) (.block is) fun s => s.context = K := by
  refine .block_invariant fun i hi => .instr fun s hs => ⟨trap i hi s hs, fun w _ => ?_, ?_⟩
  · rw [State.sighting, hs]
    exact seen w
  · rw [Instr.effect_context (steady i hi), hs]

end Spec

/-- All instructions of the code pass a test. -/
def Code.all (test : Instr τ φ → Bool) : Code τ φ → Bool
  | skip => true
  | instr i => test i
  | seq a b => a.all test && b.all test
  | ite _ yes no => yes.all test && no.all test
  | leave => true
  | jump _ => true

/-- What every instruction keeps, the code keeps. -/
theorem Spec.invariant {good : Sighting τ φ → Prop} {pre : State → Prop} {code : Code τ φ}
    {test : Instr τ φ → Bool} (passes : code.all test = true)
    (h : ∀ i, test i = true → Spec E good pre (.instr i) pre) : Spec E good pre code pre := by
  induction code with
  | skip => exact .skip fun _ h => h
  | instr i => exact h i passes
  | seq a b iha ihb =>
      rw [Code.all, Bool.and_eq_true] at passes
      exact .seq (iha passes.1) (ihb passes.2)
  | ite cond yes no ihy ihn =>
      rw [Code.all, Bool.and_eq_true] at passes
      exact .ite ((ihy passes.1).weaken (fun _ h => h.1) fun _ h => h)
        ((ihn passes.2).weaken (fun _ h => h.1) fun _ h => h)
  | leave => exact .leave
  | jump target => exact .jump

/-- Nothing is seen and nothing can trap. -/
def Code.quiet : Code τ φ → Bool := Code.all fun i => i.seen.isEmpty && !i.canTrap

theorem Spec.quiet_instr {good : Sighting τ φ → Prop} {i : Instr τ φ}
    (h : (i.seen.isEmpty && !i.canTrap) = true) :
    Spec E good (fun _ => True) (.instr i) fun _ => True := by
  rw [Bool.and_eq_true, List.isEmpty_iff, Bool.not_eq_true'] at h
  refine .instr fun s _ => ⟨Instr.trap_eq_none h.2 s, fun w hw => ?_, trivial⟩
  rw [h.1] at hw
  cases hw

/-- Quiet code may run in any state. -/
theorem Spec.quiet {good : Sighting τ φ → Prop} {pre : State → Prop} {code : Code τ φ}
    (h : code.quiet = true) : Spec E good pre code fun _ => True :=
  (Spec.invariant h fun _ => Spec.quiet_instr).weaken (fun _ _ => trivial) fun _ h => h

/-- Control does not leave the code before its end. -/
def Code.stays : Code τ φ → Bool
  | skip => true
  | instr _ => true
  | seq a b => a.stays && b.stays
  | ite _ yes no => yes.stays && no.stays
  | leave => false
  | jump _ => false

theorem Code.stays_block (is : List (Instr τ φ)) : (Code.block is).stays = true := by
  induction is with
  | nil => rfl
  | cons i is ih => exact ih

/-- Control has not left the code. -/
def Status.inside : Status ρ → Bool
  | running => true
  | trapped _ => true
  | _ => false

theorem Code.inside_of_stays {code : Code τ φ} (h : code.stays = true)
    (hc : c.status.inside = true) : (code.exec E c).status.inside = true := by
  induction code generalizing c with
  | skip => exact hc
  | instr i =>
      rw [exec]
      split
      · cases i.trap E c.state <;> rfl
      · exact hc
  | seq a b iha ihb =>
      rw [stays, Bool.and_eq_true] at h
      exact ihb h.2 (iha h.1 hc)
  | ite cond yes no ihy ihn =>
      rw [stays, Bool.and_eq_true] at h
      rw [exec]
      split
      · exact ihy h.1 hc
      · exact ihn h.2 hc
  | leave => cases h
  | jump target => cases h

/-- Code that stays to its end reaches it, in a state that meets `post`. -/
theorem Spec.completes {good : Sighting τ φ → Prop} {pre post : State → Prop} {code : Code τ φ}
    (h : Spec E good pre code post) (stays : code.stays = true) {log : List (Sighting τ φ)}
    (start : pre s) (seen : ∀ o ∈ log, good o) :
    ∃ t after, code.exec E ⟨s, log, .running⟩ = ⟨t, after, .running⟩ ∧ post t := by
  obtain ⟨-, trapped, done⟩ := h s log start seen
  have inside := Code.inside_of_stays (E := E) (c := ⟨s, log, .running⟩) stays rfl
  generalize code.exec E ⟨s, log, .running⟩ = d at trapped inside done
  obtain ⟨t, after, status⟩ := d
  cases status with
  | running => exact ⟨t, after, rfl, done rfl⟩
  | trapped r => exact (trapped r rfl).elim
  | left => cases inside
  | jumped target => cases inside

/-- Somewhere on its way from `pre` the code is seen to do what `what` says. -/
def Sees (E : Env φ ρ) (what : Sighting τ φ → Prop) (pre : State → Prop) (code : Code τ φ) : Prop :=
  ∀ s log, pre s → ∃ o ∈ (code.exec E ⟨s, log, .running⟩).log, what o

namespace Sees

variable {what : Sighting τ φ → Prop} {pre mid : State → Prop}
variable {a b : Code τ φ} {i : Instr τ φ} {is js : List (Instr τ φ)}

theorem instr (h : ∀ s, pre s → ∃ w ∈ i.seen, what (s.sighting w)) :
    Sees E what pre (.instr i) := by
  intro s log hs
  obtain ⟨w, hw, hwhat⟩ := h s hs
  refine ⟨s.sighting w, ?_, hwhat⟩
  rw [Code.exec_instr]
  cases i.trap E s <;> exact List.mem_append_right _ (List.mem_map_of_mem hw)

theorem first (h : Sees E what pre a) : Sees E what pre (.seq a b) := by
  intro s log hs
  obtain ⟨o, ho, hwhat⟩ := h s log hs
  exact ⟨o, Code.log_subset b ho, hwhat⟩

theorem second (run : Spec E (fun _ => True) pre a mid) (stays : a.stays = true)
    (h : Sees E what mid b) : Sees E what pre (.seq a b) := by
  intro s log hs
  obtain ⟨t, after, same, hmid⟩ := run.completes stays hs fun _ _ => trivial
  rw [Code.exec, same]
  exact h t after hmid

theorem assoc {d : Code τ φ} (h : Sees E what pre (.seq (.seq a b) d)) :
    Sees E what pre (.seq a (.seq b d)) := h

theorem block_append (h : Sees E what pre (.seq (.block is) (.block js))) :
    Sees E what pre (.block (is ++ js)) := by
  intro s log hs
  rw [Code.exec_block_append]
  exact h s log hs

end Sees

end X86
