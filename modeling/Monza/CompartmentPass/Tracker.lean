import Mathlib.Logic.Function.Basic
import Monza.Lib.Outcome

/-!
# Global variables and the tracker of the compartment pass

The pass decides for the global variables of a module which of them stay in global memory
and which become thread-local. Constants are unique in LLVM, so a constant is identified
with what it is built from; here they are an arbitrary type, with their operands. Global
variables have an initializer, which may refer to any of them, so that the graph the
tracker goes through may have cycles. It is explored by recursion, to a given depth.

`GlobalTracker` remembers its verdict on every value it has been asked about.
-/

namespace Monza.CompartmentPass

open Outcome

/-- The values the pass meets; basic blocks are operands of block addresses. -/
inductive Value (γ χ : Type) where
  | globalVariable (g : γ)
  | constant (c : χ)
  | basicBlock (b : Nat)
  deriving DecidableEq, Repr

inductive Linkage where
  | externalLinkage
  | availableExternallyLinkage
  | linkOnceAnyLinkage
  | linkOnceODRLinkage
  | weakAnyLinkage
  | weakODRLinkage
  | appendingLinkage
  | internalLinkage
  | privateLinkage
  | externalWeakLinkage
  | commonLinkage
  deriving DecidableEq, Repr

def Linkage.isLocal : Linkage → Bool
  | internalLinkage => true
  | privateLinkage => true
  | _ => false

inductive Visibility where
  | defaultVisibility
  | hiddenVisibility
  | protectedVisibility
  deriving DecidableEq, Repr

inductive ThreadLocalMode where
  | notThreadLocal
  | generalDynamicTLSModel
  | localDynamicTLSModel
  | initialExecTLSModel
  | localExecTLSModel
  deriving DecidableEq, Repr

structure GlobalVariable (γ χ : Type) where
  name : String
  linkage : Linkage
  visibility : Visibility
  threadLocalMode : ThreadLocalMode
  isConstant : Bool
  monzaGlobal : Bool
  initializer : Option (Value γ χ)
  deriving DecidableEq, Repr

namespace GlobalVariable

variable {γ χ : Type} (gv : GlobalVariable γ χ)

def hasLocalLinkage : Bool := gv.linkage.isLocal

def isThreadLocal : Bool := gv.threadLocalMode != .notThreadLocal

end GlobalVariable

/-- The constants other than global variables: data, expressions, aggregates and the other global
objects (functions and aliases), with what the pass asks LLVM about them. -/
structure Constants (γ χ : Type) where
  operands : χ → List (Value γ χ)
  isGlobalObject : χ → Bool
  /-- `Constant::getNullValue` for the type of a global variable. -/
  nullValue : γ → χ
  needsRelocation : Value γ χ → Bool

/-- The global variables that a value is or contains, through expressions and aggregates. -/
inductive Mentions {γ χ : Type} (C : Constants γ χ) : Value γ χ → γ → Prop
  | here (g : γ) : Mentions C (.globalVariable g) g
  | operand {c : χ} {v : Value γ χ} {g : γ} (inner : C.isGlobalObject c = false)
      (mem : v ∈ C.operands c) (mentions : Mentions C v g) : Mentions C (.constant c) g

/-- What is assumed of LLVM: a constant that is or contains a global variable needs relocation. -/
def Constants.Relocates {γ χ : Type} (C : Constants γ χ) : Prop :=
  ∀ v g, Mentions C v g → C.needsRelocation v = true

inductive EvalResult where
  | unevaluated
  | mustMove
  | mayKeep
  deriving DecidableEq, Repr

namespace EvalResult

def ofBool : Bool → EvalResult
  | true => mayKeep
  | false => mustMove

/-- The verdict, if there is one. -/
def verdict : EvalResult → Option Bool
  | unevaluated => none
  | mustMove => some false
  | mayKeep => some true

@[simp] theorem ofBool_eq_mayKeep {b : Bool} : ofBool b = mayKeep ↔ b = true := by
  cases b <;> simp [ofBool]

theorem eq_ofBool {r : EvalResult} {b : Bool} (h : r.verdict = some b) : r = ofBool b := by
  cases r <;> cases h <;> rfl

theorem eq_unevaluated {r : EvalResult} (h : r.verdict = none) : r = unevaluated := by
  cases r <;> cases h
  rfl

end EvalResult

/-- The map of `GlobalTracker`. -/
abbrev Evaluated (γ χ : Type) := Value γ χ → EvalResult

/-- How the pass fails to return: the recursion is too deep, or a value is no `User`. -/
inductive PassFault where
  | recursion
  | badCast
  deriving DecidableEq, Repr

abbrev PassM := Except PassFault

section Definitions

variable {γ χ : Type} [DecidableEq γ] [DecidableEq χ]
variable (C : Constants γ χ) (globals : γ → GlobalVariable γ χ)

/-- The operands of a `User`; that of a global variable is its initializer. -/
def operandValues : Value γ χ → Option (List (Value γ χ))
  | .globalVariable g => some (globals g).initializer.toList
  | .constant c => some (C.operands c)
  | .basicBlock _ => none

/-- The check of an operand that is a global variable. -/
def keepable (g : γ) : Bool :=
  (globals g).isConstant && !(globals g).isThreadLocal && (globals g).hasLocalLinkage

/-- The verdict on an operand that has none yet. -/
def judgeOperand
    (evaluateInitializer : Value γ χ → Evaluated γ χ → PassM (Bool × Evaluated γ χ))
    (op : Value γ χ) (e : Evaluated γ χ) : PassM (Bool × Evaluated γ χ) :=
  match op with
  | .globalVariable g =>
    match (globals g).initializer with
    | none => .ok (keepable globals g, e)
    | some init =>
      if C.needsRelocation init then do
        let (result, e) ← evaluateInitializer op e
        .ok (keepable globals g && result, e)
      else .ok (keepable globals g, e)
  | .constant _ => if C.needsRelocation op then evaluateInitializer op e else .ok (true, e)
  | .basicBlock _ => evaluateInitializer op e

def evaluateOperand
    (evaluateInitializer : Value γ χ → Evaluated γ χ → PassM (Bool × Evaluated γ χ))
    (op : Value γ χ) (e : Evaluated γ χ) : PassM (Bool × Evaluated γ χ) :=
  match (e op).verdict with
  | some result => .ok (result, e)
  | none => do
    let (result, e) ← judgeOperand C globals evaluateInitializer op e
    .ok (result, Function.update e op (.ofBool result))

/-- The loop over the operands. -/
def evaluateOperands
    (evaluateInitializer : Value γ χ → Evaluated γ χ → PassM (Bool × Evaluated γ χ)) :
    List (Value γ χ) → Evaluated γ χ → PassM (Bool × Evaluated γ χ)
  | [], e => .ok (true, e)
  | op :: ops, e => do
    let (result, e) ← evaluateOperand C globals evaluateInitializer op e
    if result then evaluateOperands evaluateInitializer ops e else .ok (false, e)

/-- The first argument bounds the depth of the recursion. -/
def evaluateInitializer : Nat → Value γ χ → Evaluated γ χ → PassM (Bool × Evaluated γ χ)
  | 0, _, _ => .error .recursion
  | depth + 1, init, e =>
    match (e init).verdict with
    | some result => .ok (result, e)
    | none =>
      match operandValues C globals init with
      | none => .error .badCast
      | some ops => do
        let (result, e) ← evaluateOperands C globals (evaluateInitializer depth) ops e
        .ok (result, Function.update e init (.ofBool result))

end Definitions

/-! ## What the tracker decides

The verdicts of one query are those of a set of values, defined over the graph and the
verdicts known before the query, whatever order the recursion takes. -/

section Verdicts

variable {γ χ : Type}

/-- The operands the tracker answers "may keep" for, given the verdicts known before. -/
inductive MayKeep (C : Constants γ χ) (globals : γ → GlobalVariable γ χ) (e : Evaluated γ χ) :
    Value γ χ → Prop
  | known {v : Value γ χ} (known : e v = .mayKeep) : MayKeep C globals e v
  | globalVariable {g : γ} (unknown : e (.globalVariable g) = .unevaluated)
      (keep : keepable globals g = true)
      (inner : ∀ init, (globals g).initializer = some init → C.needsRelocation init = true →
        MayKeep C globals e init) :
      MayKeep C globals e (.globalVariable g)
  | constant {c : χ} (unknown : e (.constant c) = .unevaluated)
      (inner : C.needsRelocation (.constant c) = true →
        ∀ op ∈ C.operands c, MayKeep C globals e op) :
      MayKeep C globals e (.constant c)

variable {C : Constants γ χ} {globals : γ → GlobalVariable γ χ} {e e₁ e₂ : Evaluated γ χ}
variable {v : Value γ χ}

theorem not_mayKeep_of_mustMove (known : e v = .mustMove) : ¬ MayKeep C globals e v := by
  intro keep
  cases keep with
  | known other =>
      rw [known] at other
      cases other
  | globalVariable unknown =>
      rw [known] at unknown
      cases unknown
  | constant unknown =>
      rw [known] at unknown
      cases unknown

theorem mayKeep_globalVariable {g : γ} (unknown : e (.globalVariable g) = .unevaluated) :
    MayKeep C globals e (.globalVariable g) ↔ keepable globals g = true ∧
      ∀ init, (globals g).initializer = some init → C.needsRelocation init = true →
        MayKeep C globals e init := by
  constructor
  · intro keep
    cases keep with
    | known other =>
        rw [unknown] at other
        cases other
    | globalVariable _ keep inner => exact ⟨keep, inner⟩
  · rintro ⟨keep, inner⟩
    exact .globalVariable unknown keep inner

theorem mayKeep_constant {c : χ} (unknown : e (.constant c) = .unevaluated) :
    MayKeep C globals e (.constant c) ↔
      (C.needsRelocation (.constant c) = true → ∀ op ∈ C.operands c, MayKeep C globals e op) := by
  constructor
  · intro keep
    cases keep with
    | known other =>
        rw [unknown] at other
        cases other
    | constant _ inner => exact inner
  · intro inner
    exact .constant unknown inner

/-- The second map adds right verdicts to the first. -/
def Consistent (C : Constants γ χ) (globals : γ → GlobalVariable γ χ) (e e₁ : Evaluated γ χ) :
    Prop :=
  ∀ v, e₁ v = e v ∨
    e v = .unevaluated ∧ ∃ r, e₁ v = .ofBool r ∧ (r = true ↔ MayKeep C globals e v)

namespace Consistent

theorem refl : Consistent C globals e e := fun _ => .inl rfl

theorem unknown (h : Consistent C globals e e₁) (unknown : e₁ v = .unevaluated) :
    e v = .unevaluated := by
  obtain same | ⟨before, -⟩ := h v
  · rw [← same, unknown]
  · exact before

theorem verdict (h : Consistent C globals e e₁) {r : Bool} (known : e₁ v = .ofBool r) :
    r = true ↔ MayKeep C globals e v := by
  obtain same | ⟨-, r', verdict, right⟩ := h v
  · rw [known] at same
    cases r with
    | false => simpa using not_mayKeep_of_mustMove same.symm
    | true => simpa using MayKeep.known same.symm
  · rw [known] at verdict
    cases r <;> cases r' <;> first | exact right | cases verdict

/-- Storing a right verdict. -/
theorem set [DecidableEq γ] [DecidableEq χ] (h : Consistent C globals e e₁)
    (unknown : e v = .unevaluated) {r : Bool} (right : r = true ↔ MayKeep C globals e v) :
    Consistent C globals e (Function.update e₁ v (.ofBool r)) := by
  intro w
  by_cases same : w = v
  · subst same
    exact .inr ⟨unknown, r, Function.update_self .., right⟩
  · rw [Function.update_of_ne same]
    exact h w

end Consistent

variable [DecidableEq γ] [DecidableEq χ]

/-- What the tracker answers on a value without verdict, asked as an initializer: it judges the
operands, and nothing of the value itself. -/
def Specified (C : Constants γ χ) (globals : γ → GlobalVariable γ χ)
    (evaluateInitializer : Value γ χ → Evaluated γ χ → PassM (Bool × Evaluated γ χ)) : Prop :=
  ∀ {e e₁ e₂ : Evaluated γ χ} {v : Value γ χ} {r : Bool},
    evaluateInitializer v e₁ = .ok (r, e₂) → Consistent C globals e e₁ → e₁ v = .unevaluated →
    ∃ ops e₃, operandValues C globals v = some ops ∧ Consistent C globals e e₃ ∧
      e₂ = Function.update e₃ v (.ofBool r) ∧ (r = true ↔ ∀ op ∈ ops, MayKeep C globals e op)

section Operands

variable {inner : Value γ χ → Evaluated γ χ → PassM (Bool × Evaluated γ χ)} {r : Bool}

/-- A judged operand, before its verdict is stored. -/
theorem judgeOperand_spec (spec : Specified C globals inner)
    (run : judgeOperand C globals inner v e₁ = .ok (r, e₂)) (before : Consistent C globals e e₁)
    (unknown : e₁ v = .unevaluated) :
    (r = true ↔ MayKeep C globals e v) ∧
      ∃ e₃, Consistent C globals e e₃ ∧
        ∀ r', Function.update e₂ v r' = Function.update e₃ v r' := by
  have unknown' := before.unknown unknown
  cases v with
  | globalVariable g =>
      simp only [judgeOperand] at run
      rw [mayKeep_globalVariable unknown']
      cases initializer : (globals g).initializer with
      | none =>
          rw [initializer] at run
          cases run
          refine ⟨?_, e₁, before, fun _ => rfl⟩
          simp
      | some init =>
          simp only [initializer] at run
          by_cases reloc : C.needsRelocation init = true
          · rw [if_pos reloc] at run
            obtain ⟨⟨result, e₄⟩, asked, same⟩ := bind_eq_ok.mp run
            cases same
            obtain ⟨ops, e₃, operands, after, rfl, right⟩ := spec asked before unknown
            cases operands
            refine ⟨?_, e₃, after, fun _ => Function.update_idem ..⟩
            simp [right, initializer, reloc]
          · rw [if_neg reloc] at run
            cases run
            refine ⟨?_, e₁, before, fun _ => rfl⟩
            simp [reloc]
  | constant c =>
      simp only [judgeOperand] at run
      rw [mayKeep_constant unknown']
      by_cases reloc : C.needsRelocation (.constant c) = true
      · rw [if_pos reloc] at run
        obtain ⟨ops, e₃, operands, after, rfl, right⟩ := spec run before unknown
        cases operands
        refine ⟨?_, e₃, after, fun _ => Function.update_idem ..⟩
        rw [right]
        simp [reloc]
      · rw [if_neg reloc] at run
        cases run
        refine ⟨?_, e₁, before, fun _ => rfl⟩
        simp [reloc]
  | basicBlock b =>
      obtain ⟨ops, e₃, operands, -⟩ := spec run before unknown
      cases operands

theorem evaluateOperand_spec (spec : Specified C globals inner)
    (run : evaluateOperand C globals inner v e₁ = .ok (r, e₂))
    (before : Consistent C globals e e₁) :
    Consistent C globals e e₂ ∧ e₂ v = .ofBool r ∧ (r = true ↔ MayKeep C globals e v) := by
  simp only [evaluateOperand] at run
  cases known : (e₁ v).verdict with
  | some result =>
      rw [known] at run
      cases run
      have known := EvalResult.eq_ofBool known
      exact ⟨before, known, before.verdict known⟩
  | none =>
      simp only [known] at run
      have unknown := EvalResult.eq_unevaluated known
      obtain ⟨⟨result, e₄⟩, judged, same⟩ := bind_eq_ok.mp run
      cases same
      obtain ⟨right, e₃, after, same⟩ := judgeOperand_spec spec judged before unknown
      rw [same]
      exact ⟨after.set (before.unknown unknown) right, Function.update_self .., right⟩

theorem evaluateOperands_spec (spec : Specified C globals inner) {ops : List (Value γ χ)}
    (run : evaluateOperands C globals inner ops e₁ = .ok (r, e₂))
    (before : Consistent C globals e e₁) :
    Consistent C globals e e₂ ∧ (r = true ↔ ∀ op ∈ ops, MayKeep C globals e op) := by
  induction ops generalizing e₁ with
  | nil =>
      cases run
      exact ⟨before, by simp⟩
  | cons op ops ih =>
      obtain ⟨⟨result, e₃⟩, first, run⟩ := bind_eq_ok.mp run
      obtain ⟨after, -, right⟩ := evaluateOperand_spec spec first before
      cases result with
      | true =>
          obtain ⟨last, rest⟩ := ih run after
          refine ⟨last, ?_⟩
          rw [List.forall_mem_cons, ← right, rest]
          simp
      | false =>
          cases run
          refine ⟨after, ?_⟩
          rw [List.forall_mem_cons, ← right]
          simp

end Operands

theorem evaluateInitializer_specified (depth : Nat) :
    Specified C globals (evaluateInitializer C globals depth) := by
  induction depth with
  | zero =>
      intro e e₁ e₂ v r run
      cases run
  | succ depth ih =>
      intro e e₁ e₂ v r run before unknown
      simp only [evaluateInitializer, unknown, EvalResult.verdict] at run
      cases operands : operandValues C globals v with
      | none =>
          rw [operands] at run
          cases run
      | some ops =>
          simp only [operands] at run
          obtain ⟨⟨result, e₃⟩, judged, same⟩ := bind_eq_ok.mp run
          cases same
          obtain ⟨after, right⟩ := evaluateOperands_spec ih judged before
          exact ⟨ops, e₃, rfl, after, rfl, right⟩

/-- Asked as an initializer, a value without verdict is judged by its operands only. -/
def InitMayKeep (C : Constants γ χ) (globals : γ → GlobalVariable γ χ) (e : Evaluated γ χ)
    (v : Value γ χ) : Prop :=
  e v = .mayKeep ∨ e v = .unevaluated ∧
    ∃ ops, operandValues C globals v = some ops ∧ ∀ op ∈ ops, MayKeep C globals e op

/-- A query of the pass: its answer, and the verdicts it leaves. -/
theorem evaluateInitializer_spec {depth : Nat} {r : Bool}
    (run : evaluateInitializer C globals depth v e = .ok (r, e₂)) :
    (r = true ↔ InitMayKeep C globals e v) ∧ e₂ v = .ofBool r ∧
      (e₂ = e ∨ e v = .unevaluated ∧
        ∃ e₁, Consistent C globals e e₁ ∧ e₂ = Function.update e₁ v (.ofBool r)) := by
  cases known : (e v).verdict with
  | some result =>
      cases depth with
      | zero => cases run
      | succ depth =>
          simp only [evaluateInitializer, known] at run
          cases run
          have known := EvalResult.eq_ofBool known
          refine ⟨?_, known, .inl rfl⟩
          cases r <;> simp [InitMayKeep, known, EvalResult.ofBool]
  | none =>
      have unknown := EvalResult.eq_unevaluated known
      obtain ⟨ops, e₁, operands, after, rfl, right⟩ :=
        evaluateInitializer_specified depth run .refl unknown
      refine ⟨?_, Function.update_self .., .inr ⟨unknown, e₁, after, rfl⟩⟩
      rw [right]
      simp [InitMayKeep, unknown, operands]

end Verdicts

end Monza.CompartmentPass
