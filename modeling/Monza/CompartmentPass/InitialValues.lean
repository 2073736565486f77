import Mathlib.Data.List.Nodup
import Mathlib.Data.List.Perm.Basic
import Monza.CompartmentPass.Run

/-!
# Initial values of the variables that are moved

Before the pass an initializer is a value for the linker. After it, a new thread gets a copy of
the template of thread-local storage and calls every function of the section `__monza_init`.
Constants are given a meaning for every choice of addresses of the global variables; the
thread's own addresses give what the original initializer denotes there.

Each variable is met once by the pass, so that each is the target of at most one store and
the order of the section does not matter.
-/

namespace Monza.CompartmentPass

open Outcome

/-- What constants denote when the global variables have given addresses. It depends on the
addresses of the variables they mention. -/
structure Meaning {γ χ : Type} (C : Constants γ χ) (ν : Type) where
  denote : (γ → ν) → Value γ χ → ν
  mentioned : ∀ {address address' : γ → ν} {v : Value γ χ},
    (∀ g, Mentions C v g → address g = address' g) → denote address v = denote address' v

section Stores

variable {γ χ ν : Type} [DecidableEq γ] {C : Constants γ χ}

/-- A call of an initialization function, in a thread with the given addresses. -/
def InitFunction.call (sem : Meaning C ν) (address : γ → ν) (memory : γ → ν)
    (fn : InitFunction γ χ) : γ → ν :=
  Function.update memory fn.target (sem.denote address fn.value)

/-- The entries between `__monza_init_start` and `__monza_init_end`. -/
def Compiled.initSection (out : Compiled γ χ) : List (InitFunction γ χ) :=
  (out.initVariables.filter (·.sectionName == "__monza_init")).map InitVariable.initializer

/-- The loop of `monza_thread_initializers`. -/
def monzaThreadInitializers (sem : Meaning C ν) (address : γ → ν) (memory : γ → ν)
    (entries : List (InitFunction γ χ)) : γ → ν :=
  entries.foldl (InitFunction.call sem address) memory

/-- The memory a new thread sees: `initialize_tls` copies the template, with link-time values of
the initializers. The other variables, and those defined in other modules, have some contents. -/
def initializeTls (sem : Meaning C ν) (link : γ → ν) (out : Compiled γ χ) (memory : γ → ν) :
    γ → ν := fun g =>
  if (out.globals g).isThreadLocal then
    match (out.globals g).initializer with
    | some init => sem.denote link init
    | none => memory g
  else memory g

variable {sem : Meaning C ν} {address memory : γ → ν} {entries : List (InitFunction γ χ)} {g : γ}

theorem monzaThreadInitializers_of_notMem (other : ∀ fn ∈ entries, fn.target ≠ g) :
    monzaThreadInitializers sem address memory entries g = memory g := by
  induction entries generalizing memory with
  | nil => rfl
  | cons fn entries ih =>
      obtain ⟨first, rest⟩ := List.forall_mem_cons.mp other
      exact (ih rest).trans (Function.update_of_ne first.symm ..)

theorem monzaThreadInitializers_of_mem (single : (entries.map (·.target)).Nodup)
    {fn : InitFunction γ χ} (mem : fn ∈ entries) :
    monzaThreadInitializers sem address memory entries fn.target =
      sem.denote address fn.value := by
  induction entries generalizing memory with
  | nil => cases mem
  | cons head entries ih =>
      rw [List.map_cons, List.nodup_cons] at single
      cases mem with
      | head =>
          -- nothing after the store to the variable touches it again
          have rest : ∀ fn' ∈ entries, fn'.target ≠ fn.target := by
            intro fn' mem same
            exact single.1 (List.mem_map.mpr ⟨fn', mem, same⟩)
          exact (monzaThreadInitializers_of_notMem rest).trans (Function.update_self ..)
      | tail _ mem => exact ih single.2 mem

end Stores

section Values

variable {γ χ ν : Type} {C : Constants γ χ}

/-- A constant that needs no relocation denotes the same everywhere. -/
theorem Meaning.denote_plain (sem : Meaning C ν) (relocates : C.Relocates) {v : Value γ χ}
    (plain : C.needsRelocation v = false) (address address' : γ → ν) :
    sem.denote address v = sem.denote address' v := by
  apply sem.mentioned
  intro g mentions
  rw [relocates v g mentions] at plain
  cases plain

theorem target_initFunction {g : γ} {gv : GlobalVariable γ χ} {fn : InitFunction γ χ}
    (h : initFunction C g gv = some fn) :
    fn.target = g ∧ relocated C gv = some fn.value := by
  obtain ⟨init, found, rfl⟩ := Option.map_eq_some_iff.mp h
  exact ⟨rfl, found⟩

theorem exists_initFunction (g : γ) {gv : GlobalVariable γ χ} {init : Value γ χ}
    (h : relocated C gv = some init) :
    ∃ fn, initFunction C g gv = some fn ∧ fn.target = g ∧ fn.value = init := by
  rw [initFunction, h]
  exact ⟨_, rfl, rfl, rfl⟩

theorem relocated_eq_some {gv : GlobalVariable γ χ} {init : Value γ χ}
    (found : gv.initializer = some init) (reloc : C.needsRelocation init = true) :
    relocated C gv = some init := by
  rw [relocated, found, Option.filter_some, if_pos reloc]

theorem relocated_eq_none {gv : GlobalVariable γ χ} {init : Value γ χ}
    (found : gv.initializer = some init) (plain : C.needsRelocation init = false) :
    relocated C gv = none := by
  rw [relocated, found, Option.filter_some, if_neg (Bool.eq_false_iff.mp plain)]

/-- The variables that the pass makes thread-local. -/
def Compiled.Moved (out : Compiled γ χ) (g : γ) : Prop :=
  (out.globals g).isLeftAlone = false ∧ (out.globals g).isThreadLocal = true

/-- What the pass leaves, from the variables that it has moved. -/
structure Result (C : Constants γ χ) (M : Module γ χ) (moves : List γ) (out : Compiled γ χ) :
    Prop where
  nodup : moves.Nodup
  moved : ∀ g, out.Moved g ↔ g ∈ moves
  globals : ∀ g ∈ moves, out.globals g = CompartmentPass.moved C g (M.globals g)
  entries : out.initSection = moves.filterMap fun g => initFunction C g (M.globals g)

namespace Result

variable {M : Module γ χ} {moves : List γ} {out : Compiled γ χ} {g : γ}

theorem mem_entries (h : Result C M moves out) {fn : InitFunction γ χ} :
    fn ∈ out.initSection ↔ fn.target ∈ moves ∧
      initFunction C fn.target (M.globals fn.target) = some fn := by
  rw [h.entries, List.mem_filterMap]
  constructor
  · rintro ⟨g, mem, made⟩
    rw [(target_initFunction made).1]
    exact ⟨mem, made⟩
  · rintro ⟨mem, made⟩
    exact ⟨_, mem, made⟩

/-- No variable has two initialization functions. -/
theorem nodup_targets (h : Result C M moves out) : (out.initSection.map (·.target)).Nodup := by
  rw [h.entries, List.map_filterMap]
  refine List.Nodup.filterMap ?_ h.nodup
  intro g g' k mem mem'
  obtain ⟨fn, made, rfl⟩ := Option.map_eq_some_iff.mp mem
  obtain ⟨fn', made', same⟩ := Option.map_eq_some_iff.mp mem'
  rw [(target_initFunction made).1, (target_initFunction made').1] at same
  exact same.symm

theorem mem_targets (h : Result C M moves out) :
    g ∈ out.initSection.map (·.target) ↔ g ∈ moves ∧ (relocated C (M.globals g)).isSome = true := by
  constructor
  · intro mem
    obtain ⟨fn, entry, rfl⟩ := List.mem_map.mp mem
    obtain ⟨mem, made⟩ := h.mem_entries.mp entry
    exact ⟨mem, Option.isSome_of_eq_some (target_initFunction made).2⟩
  · rintro ⟨mem, reloc⟩
    obtain ⟨init, found⟩ := Option.isSome_iff_exists.mp reloc
    obtain ⟨fn, made, rfl, -⟩ := exists_initFunction g found
    exact List.mem_map.mpr ⟨fn, h.mem_entries.mpr ⟨mem, made⟩, rfl⟩

end Result

variable [DecidableEq γ] [DecidableEq χ] {depth : Nat}

theorem exists_result {M : Module γ χ} {out : Compiled γ χ} (run : M.run C depth = .ok out) :
    ∃ moves, Result C M moves out := by
  obtain ⟨s, loop, same⟩ := bind_eq_ok.mp run
  cases same
  obtain ⟨moves, h⟩ := exists_moves (List.append_nil _).symm loop
  refine ⟨moves, h.sub.nodup M.nodup, ?_, ?_, ?_⟩
  · intro g
    show (s.globals g).isLeftAlone = false ∧ (s.globals g).isThreadLocal = true ↔ g ∈ moves
    rw [h.globals]
    by_cases mem : g ∈ moves
    · rw [if_pos mem]
      simp [mem, h.notAlone g mem]
    · rw [if_neg mem, iff_false_intro mem, iff_false]
      rintro ⟨other, already⟩
      obtain alone | keep := h.kept g (M.complete g) mem
      · rw [alone] at other
        cases other
      · simp [keepable, already] at keep
  · intro g mem
    exact (h.globals g).trans (if_pos mem)
  · have all : ∀ v ∈ s.initFunctions.map (initVariable s.globals),
        (v.sectionName == "__monza_init") = true := by
      intro v mem
      obtain ⟨fn, -, rfl⟩ := List.mem_map.mp mem
      exact beq_self_eq_true _
    rw [Compiled.initSection, List.filter_eq_self.mpr all, List.map_map, ← h.inits]
    exact List.map_id _

end Values

/-- After the pass, in a new thread whose thread-local storage is a copy of the template, calling
the functions of the section in any order gives every variable the pass has moved the value of
its original initializer at the addresses of that thread, and changes no other variable. Each
moved variable whose initializer needs relocation has one function there, and no other has. -/
theorem initial_values_preserved {γ χ ν : Type} [DecidableEq γ] [DecidableEq χ]
    (C : Constants γ χ) (sem : Meaning C ν) (M : Module γ χ) (depth : Nat) (out : Compiled γ χ)
    (relocates : C.Relocates) (run : M.run C depth = .ok out) (link thread memory : γ → ν)
    (entries : List (InitFunction γ χ)) (order : entries.Perm out.initSection) :
    (∀ g, out.Moved g → ∀ init, (M.globals g).initializer = some init →
      monzaThreadInitializers sem thread (initializeTls sem link out memory) entries g =
        sem.denote thread init) ∧
    (∀ g, ¬ out.Moved g →
      monzaThreadInitializers sem thread (initializeTls sem link out memory) entries g =
        initializeTls sem link out memory g) ∧
    ∀ g, (out.initSection.map (·.target)).count g =
      if (relocated C (M.globals g)).isSome ∧ (out.globals g).isLeftAlone = false ∧
        (out.globals g).isThreadLocal then 1 else 0 := by
  obtain ⟨moves, h⟩ := exists_result run
  have single : (entries.map (·.target)).Nodup := (order.map _).nodup_iff.mpr h.nodup_targets
  have targets : ∀ g, g ∈ entries.map (·.target) ↔
      g ∈ moves ∧ (relocated C (M.globals g)).isSome = true := by
    intro g
    rw [(order.map _).mem_iff, h.mem_targets]
  have untouched : ∀ g, g ∉ entries.map (·.target) →
      monzaThreadInitializers sem thread (initializeTls sem link out memory) entries g =
        initializeTls sem link out memory g := by
    intro g other
    apply monzaThreadInitializers_of_notMem
    rintro fn mem rfl
    exact other (List.mem_map_of_mem mem)
  refine ⟨?_, ?_, ?_⟩
  · intro g isMoved init found
    have mem := (h.moved g).mp isMoved
    cases reloc : C.needsRelocation init with
    | true =>
        obtain ⟨fn, made, rfl, rfl⟩ := exists_initFunction g (relocated_eq_some found reloc)
        have entry := order.mem_iff.mpr (h.mem_entries.mpr ⟨mem, made⟩)
        exact monzaThreadInitializers_of_mem single entry
    | false =>
        -- the value is in the template already
        have plain := relocated_eq_none found reloc
        rw [untouched g (by simp [targets, plain]), initializeTls, h.globals g mem,
          if_pos (isThreadLocal_moved g _)]
        simp only [moved, plain, found]
        exact sem.denote_plain relocates reloc link thread
  · intro g notMoved
    apply untouched
    rw [targets, ← h.moved]
    exact fun both => notMoved both.1
  · intro g
    rw [h.nodup_targets.count]
    refine if_congr ?_ rfl rfl
    rw [h.mem_targets, ← h.moved, Compiled.Moved, and_comm]

/-- Numbers denote themselves and variables their addresses. -/
def numberMeaning (γ : Type) : Meaning (numbers γ) Nat where
  denote address
    | .globalVariable g => address g
    | .constant n => n
    | .basicBlock b => b
  mentioned := by
    intro address address' v same
    cases v with
    | globalVariable g => exact same g (.here g)
    | constant n => rfl
    | basicBlock b => rfl

/-- In the sample, `@z` points at the copy of `@x` of the thread. -/
theorem initial_values_preserved_sample :
    ∃ out, (sampleModule .a).run (numbers Sample) 2 = .ok out ∧ out.Moved .z ∧
      ∀ thread, monzaThreadInitializers (numberMeaning Sample) thread
        (initializeTls (numberMeaning Sample) (fun _ => 0) out (fun _ => 7)) out.initSection .z =
          thread .x := by
  have result : ((sampleModule .a).run (numbers Sample) 2).map (fun out =>
      ((out.globals .z).isLeftAlone, (out.globals .z).isThreadLocal)) = .ok (false, true) := by
    decide +kernel
  cases run : (sampleModule .a).run (numbers Sample) 2 with
  | error fault =>
      rw [run] at result
      cases result
  | ok out =>
      rw [run] at result
      have isMoved : out.Moved .z := Prod.mk.inj (Except.ok.inj result)
      refine ⟨out, rfl, isMoved, fun thread => ?_⟩
      have values := initial_values_preserved (numbers Sample) (numberMeaning Sample)
        (sampleModule .a) 2 out (numbers_relocates Sample) run (fun _ => 0) thread (fun _ => 7)
        out.initSection (List.Perm.refl _)
      exact values.1 .z isMoved (.globalVariable .x) rfl

end Monza.CompartmentPass
