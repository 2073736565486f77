import Monza.CompartmentPass.Tracker

/-!
# The compartment pass

The loop of `MonzaCompartmentPass::run` over the global variables of a module. A variable is
left alone by its name or attribute, kept by the constant rule, or moved: it becomes
thread-local, and an initializer that needs relocation is replaced by null and by a function
that stores the original value.

Each variable is met once. What the pass makes of it is therefore either the variable it was
or its moved form (`step_globals`, `run_globals`), whatever was decided about the others.
-/

namespace Monza.CompartmentPass

open Outcome

/-- Names that are left alone: metadata of the module and the markers of the unwinder. -/
def keptNames : List String :=
  ["llvm.global_ctors", "llvm.used", "llvm.compiler.used", "__eh_frame_start", "__eh_frame_end",
    "__eh_frame_hdr_start", "__eh_frame_hdr_end"]

/-- Beginnings of names that are left alone: type information and virtual tables, the DSO handle,
the standard library and the allocator outside of compartments. -/
def keptStarts : List String :=
  ["_ZTV", "_ZTT", "_ZTI", "_ZTS", "__dso_handle", "_ZNSt3__1", "_ZN14monza_snmalloc",
    "_ZZN14monza_snmalloc"]

namespace GlobalVariable

variable {γ χ : Type} (gv : GlobalVariable γ χ)

def isLeftAlone : Bool :=
  keptNames.contains gv.name ||
    keptStarts.any (fun start => start.toList.isPrefixOf gv.name.toList) || gv.monzaGlobal

/-- The initializer that the constant rule looks at. -/
def ruleInitializer : Option (Value γ χ) :=
  if gv.isConstant && !gv.isThreadLocal && gv.hasLocalLinkage then gv.initializer else none

end GlobalVariable

structure Function where
  name : String
  linkage : Linkage
  visibility : Visibility
  isIntrinsic : Bool
  deriving DecidableEq, Repr

/-- An initialization function; its body is the store of the value to the variable. -/
structure InitFunction (γ χ : Type) extends Function where
  target : γ
  value : Value γ χ
  deriving DecidableEq, Repr

/-- A pointer to an initialization function in the section that every new thread goes through. -/
structure InitVariable (γ χ : Type) where
  name : String
  linkage : Linkage
  sectionName : String
  initializer : InitFunction γ χ
  deriving DecidableEq, Repr

/-- Global variables as the verifier of LLVM accepts them: a variable with local linkage is
defined, and initializers are constants. -/
structure WellFormed {γ χ : Type} (globals : γ → GlobalVariable γ χ) : Prop where
  defined : ∀ g, (globals g).hasLocalLinkage = true → (globals g).initializer.isSome = true
  constant : ∀ g b, (globals g).initializer ≠ some (.basicBlock b)

/-- A module: its global variables in the order of `M.globals()`, and its functions. -/
structure Module (γ χ : Type) where
  globals : γ → GlobalVariable γ χ
  order : List γ
  functions : List Function
  nodup : order.Nodup
  complete : ∀ g, g ∈ order
  wellFormed : WellFormed globals

structure PassState (γ χ : Type) where
  globals : γ → GlobalVariable γ χ
  evaluated : Evaluated γ χ
  initFunctions : List (InitFunction γ χ)

/-- The module after the pass. -/
structure Compiled (γ χ : Type) where
  globals : γ → GlobalVariable γ χ
  initVariables : List (InitVariable γ χ)
  compilerUsed : List String
  functions : List Function

section Definitions

variable {γ χ : Type} (C : Constants γ χ)

/-- The initializer that has to become a store. -/
def relocated (gv : GlobalVariable γ χ) : Option (Value γ χ) :=
  gv.initializer.filter C.needsRelocation

/-- The moved form of a variable. -/
def moved (g : γ) (gv : GlobalVariable γ χ) : GlobalVariable γ χ :=
  { gv with
    visibility := if gv.hasLocalLinkage then gv.visibility else .hiddenVisibility
    isConstant := false
    threadLocalMode := .initialExecTLSModel
    initializer :=
      if (relocated C gv).isSome then some (.constant (C.nullValue g)) else gv.initializer }

/-- The initialization function of a variable that is moved. -/
def initFunction (g : γ) (gv : GlobalVariable γ χ) : Option (InitFunction γ χ) :=
  (relocated C gv).map fun init =>
    { name := ".monza_tls_init_fn_" ++ gv.name
      linkage := if gv.hasLocalLinkage then .privateLinkage else .linkOnceODRLinkage
      visibility := .defaultVisibility
      isIntrinsic := false
      target := g
      value := init }

def initVariable (globals : γ → GlobalVariable γ χ) (fn : InitFunction γ χ) :
    InitVariable γ χ where
  name := ".monza_tls_init_var_" ++ (globals fn.target).name
  linkage := fn.linkage
  sectionName := "__monza_init"
  initializer := fn

/-- The last loop of the pass. -/
def hide (fn : Function) : Function :=
  if fn.linkage.isLocal || fn.isIntrinsic then fn else { fn with visibility := .hiddenVisibility }

variable [DecidableEq γ]

def PassState.move (s : PassState γ χ) (g : γ) : PassState γ χ :=
  { s with
    globals := Function.update s.globals g (moved C g (s.globals g))
    initFunctions := s.initFunctions ++ (initFunction C g (s.globals g)).toList }

variable [DecidableEq χ]

/-- One global variable; the first argument bounds the recursion of the tracker. -/
def step (depth : Nat) (s : PassState γ χ) (g : γ) : PassM (PassState γ χ) :=
  if (s.globals g).isLeftAlone then .ok s
  else
    match (s.globals g).ruleInitializer with
    | none => .ok (s.move C g)
    | some init =>
      if C.needsRelocation init then do
        let (keep, e) ← evaluateInitializer C s.globals depth init s.evaluated
        if keep then .ok { s with evaluated := e } else .ok ({ s with evaluated := e }.move C g)
      else .ok s

def Module.start (M : Module γ χ) : PassState γ χ where
  globals := M.globals
  evaluated := fun _ => .unevaluated
  initFunctions := []

/-- The loop over the global variables. -/
def Module.runGlobals (M : Module γ χ) (depth : Nat) : PassM (PassState γ χ) :=
  M.order.foldlM (step C depth) M.start

def Module.run (M : Module γ χ) (depth : Nat) : PassM (Compiled γ χ) := do
  let s ← M.runGlobals C depth
  let initVariables := s.initFunctions.map (initVariable s.globals)
  .ok
    { globals := s.globals
      initVariables := initVariables
      compilerUsed := initVariables.map InitVariable.name
      functions := (M.functions ++ s.initFunctions.map InitFunction.toFunction).map hide }

end Definitions

section Frame

variable {γ χ : Type} {C : Constants γ χ}

@[simp] theorem isLeftAlone_moved (g : γ) (gv : GlobalVariable γ χ) :
    (moved C g gv).isLeftAlone = gv.isLeftAlone := rfl

@[simp] theorem isThreadLocal_moved (g : γ) (gv : GlobalVariable γ χ) :
    (moved C g gv).isThreadLocal = true := rfl

theorem keepable_of_rule {globals : γ → GlobalVariable γ χ} {g : γ} {init : Value γ χ}
    (rule : (globals g).ruleInitializer = some init) :
    keepable globals g = true ∧ (globals g).initializer = some init := by
  simp only [GlobalVariable.ruleInitializer] at rule
  by_cases keep : keepable globals g = true
  · exact ⟨keep, (if_pos keep).symm.trans rule⟩
  · have none := (if_neg keep).symm.trans rule
    cases none

theorem rule_of_keepable {globals : γ → GlobalVariable γ χ} {g : γ}
    (keep : keepable globals g = true) :
    (globals g).ruleInitializer = (globals g).initializer := if_pos keep

theorem notMem_of_split {M : Module γ χ} {g : γ} {pre post : List γ}
    (split : M.order = pre ++ g :: post) : g ∉ pre ∧ g ∉ post := by
  have nodup := M.nodup
  rw [split, List.nodup_append, List.nodup_cons] at nodup
  exact ⟨fun mem => nodup.2.2 g mem g List.mem_cons_self rfl, nodup.2.1.1⟩

variable [DecidableEq γ] {s s' : PassState γ χ} {g : γ}

/-- One iteration keeps every variable, or moves the one it is at. -/
inductive Met (C : Constants γ χ) (s s' : PassState γ χ) (g : γ) : Prop
  | kept (why : (s.globals g).isLeftAlone = true ∨ keepable s.globals g = true)
      (globals : s'.globals = s.globals) (inits : s'.initFunctions = s.initFunctions)
  | moved (why : (s.globals g).isLeftAlone = false)
      (globals : s'.globals = Function.update s.globals g (moved C g (s.globals g)))
      (inits : s'.initFunctions = s.initFunctions ++ (initFunction C g (s.globals g)).toList)

/-- The state after some variables, from those of them that have been moved. -/
structure Moves (C : Constants γ χ) (M : Module γ χ) (pre moves : List γ) (s : PassState γ χ) :
    Prop where
  sub : moves.Sublist pre
  globals : ∀ g, s.globals g = if g ∈ moves then moved C g (M.globals g) else M.globals g
  kept : ∀ g ∈ pre, g ∉ moves →
    (M.globals g).isLeftAlone = true ∨ keepable M.globals g = true
  notAlone : ∀ g ∈ moves, (M.globals g).isLeftAlone = false
  inits : s.initFunctions = moves.filterMap fun g => initFunction C g (M.globals g)

namespace Moves

variable {M : Module γ χ} {pre moves : List γ}

theorem globals_of_notMem (h : Moves C M pre moves s) (fresh : g ∉ pre) :
    s.globals g = M.globals g := by
  have notMoved : g ∉ moves := fun mem => fresh (h.sub.subset mem)
  rw [h.globals, if_neg notMoved]

theorem step (h : Moves C M pre moves s) (fresh : g ∉ pre) (met : Met C s s' g) :
    ∃ moves', Moves C M (pre ++ [g]) moves' s' := by
  have same := h.globals_of_notMem fresh
  cases met with
  | kept why globals inits =>
      refine ⟨moves, h.sub.trans (List.sublist_append_left ..), ?_, ?_, h.notAlone, ?_⟩
      · rw [globals]
        exact h.globals
      · intro k mem notMoved
        obtain mem | mem := List.mem_append.mp mem
        · exact h.kept k mem notMoved
        · cases List.mem_singleton.mp mem
          rw [keepable, same] at why
          exact why
      · rw [inits, h.inits]
  | moved why globals inits =>
      refine ⟨moves ++ [g], h.sub.append_right [g], ?_, ?_, ?_, ?_⟩
      · intro k
        rw [globals]
        by_cases here : k = g
        · subst here
          simp [same]
        · simp [here, h.globals]
      · intro k mem notMoved
        simp only [List.mem_append, List.mem_singleton, not_or] at mem notMoved
        exact h.kept k (mem.resolve_right notMoved.2) notMoved.1
      · intro k mem
        obtain mem | mem := List.mem_append.mp mem
        · exact h.notAlone k mem
        · cases List.mem_singleton.mp mem
          rw [← same]
          exact why
      · rw [inits, h.inits, same, List.filterMap_append]
        cases found : initFunction C g (M.globals g) <;> simp [found]

end Moves

variable [DecidableEq χ] {depth : Nat}

/-- Everything that one iteration can do. -/
theorem step_cases (run : step C depth s g = .ok s') :
    ((s.globals g).isLeftAlone = true ∧ s' = s) ∨
    (s.globals g).isLeftAlone = false ∧
      (((s.globals g).ruleInitializer = none ∧ s' = s.move C g) ∨
      ∃ init, (s.globals g).ruleInitializer = some init ∧
        ((C.needsRelocation init = false ∧ s' = s) ∨
        C.needsRelocation init = true ∧ ∃ keep e,
          evaluateInitializer C s.globals depth init s.evaluated = .ok (keep, e) ∧
          s' = if keep then { s with evaluated := e }
            else { s with evaluated := e }.move C g)) := by
  simp only [step] at run
  by_cases alone : (s.globals g).isLeftAlone = true
  · rw [if_pos alone] at run
    cases run
    exact .inl ⟨alone, rfl⟩
  rw [if_neg alone] at run
  refine .inr ⟨Bool.eq_false_iff.mpr alone, ?_⟩
  cases rule : (s.globals g).ruleInitializer with
  | none =>
      rw [rule] at run
      cases run
      exact .inl ⟨rfl, rfl⟩
  | some init =>
      simp only [rule] at run
      refine .inr ⟨init, rfl, ?_⟩
      by_cases reloc : C.needsRelocation init = true
      · rw [if_pos reloc] at run
        obtain ⟨⟨keep, e⟩, asked, run⟩ := bind_eq_ok.mp run
        refine .inr ⟨reloc, keep, e, asked, ?_⟩
        cases keep <;> cases run <;> rfl
      · rw [if_neg reloc] at run
        cases run
        exact .inl ⟨Bool.eq_false_iff.mpr reloc, rfl⟩

theorem step_met (run : step C depth s g = .ok s') : Met C s s' g := by
  obtain ⟨alone, rfl⟩ | ⟨other, step⟩ := step_cases run
  · exact .kept (.inl alone) rfl rfl
  obtain ⟨-, rfl⟩ | ⟨init, rule, ⟨-, rfl⟩ | ⟨-, keep, e, -, rfl⟩⟩ := step
  · exact .moved other rfl rfl
  · exact .kept (.inr (keepable_of_rule rule).1) rfl rfl
  · cases keep with
    | false => exact .moved other rfl rfl
    | true => exact .kept (.inr (keepable_of_rule rule).1) rfl rfl

/-- Run lemma: the state after any part of the loop. -/
theorem exists_moves {M : Module γ χ} {pre post : List γ} (split : M.order = pre ++ post)
    (run : pre.foldlM (step C depth) M.start = .ok s) : ∃ moves, Moves C M pre moves s := by
  refine foldlM_rule (fun pre s => ∃ moves, Moves C M pre moves s) run ?_ ?_
  · exact ⟨[], .refl _, fun _ => rfl, by simp, by simp, rfl⟩
  · rintro before g after u u' inner - ⟨moves, h⟩ last
    rw [inner, List.append_assoc] at split
    exact h.step (notMem_of_split split).1 (step_met last)

end Frame

/-! ## A sample module -/

/-- Constants without operands: numbers, the only ones that are no global variables here. -/
def numbers (γ : Type) : Constants γ Nat where
  operands := fun _ => []
  isGlobalObject := fun _ => false
  nullValue := fun _ => 0
  needsRelocation
    | .globalVariable _ => true
    | _ => false

theorem numbers_relocates (γ : Type) : (numbers γ).Relocates := by
  intro v g mentions
  cases mentions with
  | here => rfl
  | operand _ mem _ => cases mem

/-- `@a = internal constant i64 16`, `@x = global i32 0`, `@z = global i32* @x`, and a private
constant that is a pointer to one of them. -/
inductive Sample where
  | a
  | x
  | z
  | pointer
  deriving DecidableEq, Repr

def Sample.globals (pointee : Sample) : Sample → GlobalVariable Sample Nat
  | a => ⟨"a", .internalLinkage, .defaultVisibility, .notThreadLocal, true, false,
      some (.constant 16)⟩
  | x => ⟨"x", .externalLinkage, .defaultVisibility, .notThreadLocal, false, false,
      some (.constant 0)⟩
  | z => ⟨"z", .externalLinkage, .defaultVisibility, .notThreadLocal, false, false,
      some (.globalVariable x)⟩
  | pointer => ⟨"pointer", .privateLinkage, .defaultVisibility, .notThreadLocal, true, false,
      some (.globalVariable pointee)⟩

def sampleModule (pointee : Sample) : Module Sample Nat where
  globals := Sample.globals pointee
  order := [.a, .x, .z, .pointer]
  functions := []
  nodup := by decide
  complete := by
    intro g
    cases g <;> decide
  wellFormed := by
    refine ⟨?_, ?_⟩
    · intro g _
      cases g <;> rfl
    · intro g b
      cases g <;> simp [Sample.globals]

end Monza.CompartmentPass
