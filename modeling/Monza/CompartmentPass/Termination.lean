import Mathlib.Data.Finite.Sum
import Monza.CompartmentPass.Run
import Monza.Lib.Exploration

/-!
# Termination of the compartment pass

The tracker stores a verdict only once the operands have been judged, and does not mark the
values it is at. It returns exactly if the operands that it goes into form no cycle and no
basic block is among them. Which operands these are depends on the verdicts known before the
query: the loop over operands ends at the first one that has to move.
-/

namespace Monza.CompartmentPass

open Outcome Relation Exploration

section Query

variable {γ χ : Type}

/-- The operands that the tracker asks about as initializers. -/
def Enters (C : Constants γ χ) (globals : γ → GlobalVariable γ χ) : Value γ χ → Prop
  | .globalVariable g =>
    ∃ init, (globals g).initializer = some init ∧ C.needsRelocation init = true
  | .constant c => C.needsRelocation (.constant c) = true
  | .basicBlock _ => True

/-- The loop over the operands of `v` comes to `w` and goes into it: what is before it may be kept,
and there is no verdict on it. -/
def Explores (C : Constants γ χ) (globals : γ → GlobalVariable γ χ) (e : Evaluated γ χ)
    (v w : Value γ χ) : Prop :=
  ∃ before after, operandValues C globals v = some (before ++ w :: after) ∧
    (∀ op ∈ before, MayKeep C globals e op) ∧ e w = .unevaluated ∧ Enters C globals w

/-- The part of the graph below `v` that the tracker goes through is finite and has operands
everywhere. -/
def Finishes (C : Constants γ χ) (globals : γ → GlobalVariable γ χ) (e : Evaluated γ χ)
    (v : Value γ χ) : Prop :=
  Acc (flip (Explores C globals e)) v ∧
    ∀ w, ReflTransGen (Explores C globals e) v w → (operandValues C globals w).isSome = true

variable {C : Constants γ χ} {globals : γ → GlobalVariable γ χ} {e e₁ e₂ : Evaluated γ χ}
variable {v w : Value γ χ}

theorem finishes_iff : Finishes C globals e v ↔ (operandValues C globals v).isSome = true ∧
    ∀ w, Explores C globals e v w → Finishes C globals e w := by
  constructor
  · rintro ⟨acc, operands⟩
    exact ⟨operands v .refl, fun w step =>
      ⟨acc.inv step, fun u reach => operands u (.head step reach)⟩⟩
  · rintro ⟨here, below⟩
    refine ⟨.intro v fun w step => (below w step).1, fun u reach => ?_⟩
    rcases ReflTransGen.cases_head reach with rfl | ⟨w, step, rest⟩
    · exact here
    · exact (below w step).2 u rest

/-- The induction that goes with it. -/
theorem Finishes.induct {motive : Value γ χ → Prop}
    (step : ∀ v ops, operandValues C globals v = some ops →
      (∀ w, Explores C globals e v w → motive w) → motive v)
    (h : Finishes C globals e v) : motive v := by
  obtain ⟨acc, operands⟩ := h
  induction acc with
  | intro v _ ih =>
      obtain ⟨ops, found⟩ := Option.isSome_iff_exists.mp (operands v .refl)
      exact step v ops found fun w next =>
        ih w next fun u reach => operands u (.head next reach)

abbrev Evaluator (γ χ : Type) := Value γ χ → Evaluated γ χ → PassM (Bool × Evaluated γ χ)

/-! ### More depth -/

/-- The second evaluator returns what the first one does. -/
def Extends (f f' : Evaluator γ χ) : Prop := ∀ v e x, f v e = .ok x → f' v e = .ok x

variable {f f' : Evaluator γ χ} {x : Bool × Evaluated γ χ}

theorem Extends.judgeOperand (h : Extends f f') (run : judgeOperand C globals f v e = .ok x) :
    judgeOperand C globals f' v e = .ok x := by
  cases v with
  | globalVariable g =>
      simp only [CompartmentPass.judgeOperand] at run ⊢
      cases initializer : (globals g).initializer with
      | none =>
          rw [initializer] at run
          exact run
      | some init =>
          simp only [initializer] at run ⊢
          by_cases reloc : C.needsRelocation init = true
          · rw [if_pos reloc] at run ⊢
            obtain ⟨y, asked, rest⟩ := bind_eq_ok.mp run
            exact bind_eq_ok.mpr ⟨y, h _ _ _ asked, rest⟩
          · rwa [if_neg reloc] at run ⊢
  | constant c =>
      simp only [CompartmentPass.judgeOperand] at run ⊢
      by_cases reloc : C.needsRelocation (.constant c) = true
      · rw [if_pos reloc] at run ⊢
        exact h _ _ _ run
      · rwa [if_neg reloc] at run ⊢
  | basicBlock b => exact h _ _ _ run

variable [DecidableEq γ] [DecidableEq χ]

theorem Extends.evaluateOperand (h : Extends f f')
    (run : evaluateOperand C globals f v e = .ok x) : evaluateOperand C globals f' v e = .ok x := by
  rw [CompartmentPass.evaluateOperand] at run ⊢
  split at run
  next => exact run
  next =>
    obtain ⟨y, judged, rest⟩ := bind_eq_ok.mp run
    exact bind_eq_ok.mpr ⟨y, h.judgeOperand judged, rest⟩

theorem Extends.evaluateOperands (h : Extends f f') {ops : List (Value γ χ)}
    (run : evaluateOperands C globals f ops e = .ok x) :
    evaluateOperands C globals f' ops e = .ok x := by
  induction ops generalizing e with
  | nil => exact run
  | cons op ops ih =>
      obtain ⟨y, first, rest⟩ := bind_eq_ok.mp run
      refine bind_eq_ok.mpr ⟨y, h.evaluateOperand first, ?_⟩
      obtain ⟨result, e'⟩ := y
      cases result with
      | true => exact ih rest
      | false => exact rest

theorem evaluateInitializer_succ (depth : Nat) :
    Extends (evaluateInitializer C globals depth) (evaluateInitializer C globals (depth + 1)) := by
  induction depth with
  | zero =>
      intro v e x run
      cases run
  | succ depth ih =>
      intro v e x run
      rw [evaluateInitializer] at run ⊢
      split at run
      next => exact run
      next =>
        split at run
        next => exact run
        next =>
          obtain ⟨y, judged, rest⟩ := bind_eq_ok.mp run
          exact bind_eq_ok.mpr ⟨y, ih.evaluateOperands judged, rest⟩

/-- The depth does not matter once it is enough. -/
theorem evaluateInitializer_mono {depth depth' : Nat} (le : depth ≤ depth') :
    Extends (evaluateInitializer C globals depth) (evaluateInitializer C globals depth') := by
  induction le with
  | refl => exact fun _ _ _ run => run
  | step _ ih => exact fun v e x run => evaluateInitializer_succ _ v e x (ih v e x run)

/-! ### What finishes returns -/

theorem evaluateInitializer_known {r : Bool} (known : (e v).verdict = some r) :
    evaluateInitializer C globals 1 v e = .ok (r, e) := by
  simp only [evaluateInitializer, known]

theorem evaluateOperand_returns (before : Consistent C globals e e₁)
    (inner : e v = .unevaluated → Enters C globals v →
      ∃ depth x, evaluateInitializer C globals depth v e₁ = .ok x) :
    ∃ depth x, evaluateOperand C globals (evaluateInitializer C globals depth) v e₁ = .ok x := by
  simp only [evaluateOperand]
  cases known : (e₁ v).verdict with
  | some result => exact ⟨0, _, rfl⟩
  | none =>
      have enter := inner (before.unknown (EvalResult.eq_unevaluated known))
      suffices judged : ∃ depth x,
          judgeOperand C globals (evaluateInitializer C globals depth) v e₁ = .ok x by
        obtain ⟨depth, x, judged⟩ := judged
        exact ⟨depth, _, bind_eq_ok.mpr ⟨x, judged, rfl⟩⟩
      cases v with
      | globalVariable g =>
          simp only [judgeOperand]
          cases initializer : (globals g).initializer with
          | none => exact ⟨0, _, rfl⟩
          | some init =>
              by_cases reloc : C.needsRelocation init = true
              · obtain ⟨depth, x, asked⟩ := enter ⟨init, initializer, reloc⟩
                exact ⟨depth, _, (if_pos reloc).trans (bind_eq_ok.mpr ⟨x, asked, rfl⟩)⟩
              · exact ⟨0, _, if_neg reloc⟩
      | constant c =>
          simp only [judgeOperand]
          by_cases reloc : C.needsRelocation (.constant c) = true
          · obtain ⟨depth, x, asked⟩ := enter reloc
            exact ⟨depth, x, (if_pos reloc).trans asked⟩
          · exact ⟨0, _, if_neg reloc⟩
      | basicBlock b => exact enter trivial

/-- The loop returns if all it goes into does. -/
theorem evaluateOperands_returns {ops : List (Value γ χ)} (before : Consistent C globals e e₁)
    (inner : ∀ front w back, ops = front ++ w :: back → (∀ op ∈ front, MayKeep C globals e op) →
      e w = .unevaluated → Enters C globals w → ∀ e₁, Consistent C globals e e₁ →
      ∃ depth x, evaluateInitializer C globals depth w e₁ = .ok x) :
    ∃ depth x, evaluateOperands C globals (evaluateInitializer C globals depth) ops e₁ = .ok x := by
  induction ops generalizing e₁ with
  | nil => exact ⟨0, _, rfl⟩
  | cons op ops ih =>
      obtain ⟨depth, ⟨r, e₂⟩, first⟩ := evaluateOperand_returns before fun unknown enter =>
        inner [] op ops rfl (by simp) unknown enter e₁ before
      obtain ⟨after, -, right⟩ := evaluateOperand_spec (evaluateInitializer_specified depth) first
        before
      cases r with
      | false => exact ⟨depth, _, bind_eq_ok.mpr ⟨_, first, rfl⟩⟩
      | true =>
          obtain ⟨depth', x, rest⟩ := ih after fun front w back split keep =>
            inner (op :: front) w back (by rw [split]; rfl)
              (List.forall_mem_cons.mpr ⟨right.mp rfl, keep⟩)
          refine ⟨max depth depth', x, bind_eq_ok.mpr ⟨(true, e₂), ?_, ?_⟩⟩
          · exact (evaluateInitializer_mono (Nat.le_max_left ..)).evaluateOperand first
          · exact (evaluateInitializer_mono (Nat.le_max_right ..)).evaluateOperands rest

theorem Finishes.returns (h : Finishes C globals e v) (before : Consistent C globals e e₁) :
    ∃ depth x, evaluateInitializer C globals depth v e₁ = .ok x := by
  revert e₁
  refine h.induct (motive := fun v => ∀ {e₁}, Consistent C globals e e₁ →
    ∃ depth x, evaluateInitializer C globals depth v e₁ = .ok x) ?_
  intro v ops found ih e₁ before
  cases known : (e₁ v).verdict with
  | some result => exact ⟨1, _, evaluateInitializer_known known⟩
  | none =>
      obtain ⟨depth, x, judged⟩ := evaluateOperands_returns before
        fun front w back split keep unknown enter _ =>
          ih w ⟨front, back, split ▸ found, keep, unknown, enter⟩
      refine ⟨depth + 1, (x.1, Function.update x.2 v (.ofBool x.1)), ?_⟩
      simp only [evaluateInitializer, known, found]
      exact bind_eq_ok.mpr ⟨x, judged, rfl⟩

/-! ### What returns finishes -/

/-- All verdicts that are new are on values that finish, if they were gone into at all. -/
def Reached (C : Constants γ χ) (globals : γ → GlobalVariable γ χ) (e e₁ : Evaluated γ χ) : Prop :=
  ∀ w, e w = .unevaluated → e₁ w ≠ .unevaluated → Enters C globals w → Finishes C globals e w

theorem Reached.set (h : Reached C globals e e₁) (r : EvalResult)
    (finishes : Enters C globals v → Finishes C globals e v) :
    Reached C globals e (Function.update e₁ v r) := by
  intro w unknown known enter
  by_cases same : w = v
  · exact same ▸ finishes (same ▸ enter)
  · rw [Function.update_of_ne same] at known
    exact h w unknown known enter

/-- An evaluator that only returns on values that finish. -/
def Finishing (C : Constants γ χ) (globals : γ → GlobalVariable γ χ) (f : Evaluator γ χ) : Prop :=
  ∀ {e e₁ : Evaluated γ χ} {v : Value γ χ} {x : Bool × Evaluated γ χ}, f v e₁ = .ok x →
    Consistent C globals e e₁ → Reached C globals e e₁ → e₁ v = .unevaluated →
    Finishes C globals e v ∧ Reached C globals e x.2

omit [DecidableEq γ] [DecidableEq χ] in
theorem judgeOperand_finishes (finishing : Finishing C globals f)
    (run : judgeOperand C globals f v e₁ = .ok x) (before : Consistent C globals e e₁)
    (reached : Reached C globals e e₁) (unknown : e₁ v = .unevaluated) :
    (Enters C globals v → Finishes C globals e v) ∧ Reached C globals e x.2 := by
  cases v with
  | globalVariable g =>
      simp only [judgeOperand] at run
      cases initializer : (globals g).initializer with
      | none =>
          rw [initializer] at run
          cases run
          refine ⟨?_, reached⟩
          rintro ⟨init, found, -⟩
          rw [initializer] at found
          cases found
      | some init =>
          simp only [initializer] at run
          by_cases reloc : C.needsRelocation init = true
          · rw [if_pos reloc] at run
            obtain ⟨y, asked, same⟩ := bind_eq_ok.mp run
            cases same
            obtain ⟨finishes, reached⟩ := finishing asked before reached unknown
            exact ⟨fun _ => finishes, reached⟩
          · rw [if_neg reloc] at run
            cases run
            refine ⟨?_, reached⟩
            rintro ⟨init', found, enter⟩
            rw [initializer] at found
            cases found
            exact absurd enter reloc
  | constant c =>
      simp only [judgeOperand] at run
      by_cases reloc : C.needsRelocation (.constant c) = true
      · rw [if_pos reloc] at run
        obtain ⟨finishes, reached⟩ := finishing run before reached unknown
        exact ⟨fun _ => finishes, reached⟩
      · rw [if_neg reloc] at run
        cases run
        exact ⟨fun enter => absurd enter reloc, reached⟩
  | basicBlock b =>
      obtain ⟨finishes, reached⟩ := finishing run before reached unknown
      exact ⟨fun _ => finishes, reached⟩

theorem evaluateOperand_finishes (finishing : Finishing C globals f)
    (run : evaluateOperand C globals f v e₁ = .ok x) (before : Consistent C globals e e₁)
    (reached : Reached C globals e e₁) :
    (e v = .unevaluated → Enters C globals v → Finishes C globals e v) ∧
      Reached C globals e x.2 := by
  simp only [evaluateOperand] at run
  cases known : (e₁ v).verdict with
  | some result =>
      rw [known] at run
      cases run
      refine ⟨fun unknown => reached v unknown ?_, reached⟩
      rintro none
      rw [none] at known
      cases known
  | none =>
      simp only [known] at run
      obtain ⟨y, judged, same⟩ := bind_eq_ok.mp run
      cases same
      obtain ⟨finishes, reached⟩ := judgeOperand_finishes finishing judged before reached
        (EvalResult.eq_unevaluated known)
      exact ⟨fun _ => finishes, reached.set _ finishes⟩

theorem evaluateOperands_finishes (finishing : Finishing C globals f)
    (spec : Specified C globals f) {ops : List (Value γ χ)}
    (run : evaluateOperands C globals f ops e₁ = .ok x) (before : Consistent C globals e e₁)
    (reached : Reached C globals e e₁) :
    (∀ front w back, ops = front ++ w :: back → (∀ op ∈ front, MayKeep C globals e op) →
      e w = .unevaluated → Enters C globals w → Finishes C globals e w) ∧
      Reached C globals e x.2 := by
  induction ops generalizing e₁ with
  | nil =>
      cases run
      exact ⟨by simp, reached⟩
  | cons op ops ih =>
      obtain ⟨⟨r, e₂⟩, first, rest⟩ := bind_eq_ok.mp run
      obtain ⟨finishes, between⟩ := evaluateOperand_finishes finishing first before reached
      obtain ⟨after, -, right⟩ := evaluateOperand_spec spec first before
      -- Later operands are looked at only if the first one may be kept.
      have later : (MayKeep C globals e op → ∀ front w back, ops = front ++ w :: back →
          (∀ op ∈ front, MayKeep C globals e op) → e w = .unevaluated → Enters C globals w →
          Finishes C globals e w) ∧ Reached C globals e x.2 := by
        cases r with
        | false =>
            cases rest
            refine ⟨?_, between⟩
            intro keep
            cases right.mpr keep
        | true =>
            obtain ⟨others, last⟩ := ih rest after between
            exact ⟨fun _ => others, last⟩
      refine ⟨?_, later.2⟩
      intro front w back split keep
      cases front with
      | nil =>
          cases split
          exact finishes
      | cons op' front =>
          cases split
          exact later.1 (keep op List.mem_cons_self) front w back rfl
            fun op mem => keep op (List.mem_cons_of_mem _ mem)

theorem evaluateInitializer_finishing (depth : Nat) :
    Finishing C globals (evaluateInitializer C globals depth) := by
  induction depth with
  | zero =>
      intro e e₁ v x run
      cases run
  | succ depth ih =>
      intro e e₁ v x run before reached unknown
      simp only [evaluateInitializer, unknown, EvalResult.verdict] at run
      cases operands : operandValues C globals v with
      | none =>
          rw [operands] at run
          cases run
      | some ops =>
          simp only [operands] at run
          obtain ⟨y, judged, same⟩ := bind_eq_ok.mp run
          cases same
          obtain ⟨below, last⟩ := evaluateOperands_finishes ih
            (evaluateInitializer_specified depth) judged before reached
          have finishes : Finishes C globals e v := by
            refine finishes_iff.mpr ⟨by rw [operands]; rfl, ?_⟩
            rintro w ⟨front, back, split, keep, unevaluated, enter⟩
            rw [operands] at split
            exact below front w back (Option.some.inj split) keep unevaluated enter
          exact ⟨finishes, last.set _ fun _ => finishes⟩

/-- A query returns exactly if it finishes, or its value has been evaluated before. -/
theorem evaluateInitializer_returns_iff :
    (∃ depth x, evaluateInitializer C globals depth v e = .ok x) ↔
      (e v = .unevaluated → Finishes C globals e v) := by
  constructor
  · rintro ⟨depth, x, run⟩ unknown
    exact (evaluateInitializer_finishing depth run .refl (fun w h h' => absurd h h') unknown).1
  · intro finishes
    cases known : (e v).verdict with
    | some result => exact ⟨1, _, evaluateInitializer_known known⟩
    | none => exact (finishes (EvalResult.eq_unevaluated known)).returns .refl

/-- Nothing on a cycle and no basic block can be reached through operands that the tracker goes
into. -/
structure NoCycle (C : Constants γ χ) (globals : γ → GlobalVariable γ χ) (e : Evaluated γ χ)
    (v : Value γ χ) : Prop where
  acyclic : Acyclic (Explores C globals e) v
  operands : ∀ b, ¬ ReflTransGen (Explores C globals e) v (.basicBlock b)

omit [DecidableEq γ] [DecidableEq χ] in
theorem finishes_iff_noCycle [Finite γ] [Finite χ] :
    Finishes C globals e v ↔ NoCycle C globals e v := by
  constructor
  · rintro ⟨acc, operands⟩
    refine ⟨acyclic_of_acc acc, fun b reach => ?_⟩
    have some := operands _ reach
    cases some
  · rintro ⟨acyclic, operands⟩
    have users : ∀ w, ReflTransGen (Explores C globals e) v w →
        w ∈ Set.range (Sum.elim Value.globalVariable Value.constant : γ ⊕ χ → Value γ χ) := by
      intro w reach
      cases w with
      | globalVariable g => exact ⟨.inl g, rfl⟩
      | constant c => exact ⟨.inr c, rfl⟩
      | basicBlock b => exact absurd reach (operands b)
    refine ⟨acc_of_acyclic ((Set.finite_range _).subset users) acyclic, fun w reach => ?_⟩
    obtain ⟨g | c, rfl⟩ := users w reach
    · rfl
    · rfl

end Query

/-! ## The pass -/

section Pass

variable {γ χ : Type} [DecidableEq γ] [DecidableEq χ] {C : Constants γ χ}
variable {s s' : PassState γ χ} {g : γ} {depth depth' : Nat}

/-- The condition on an iteration: if it asks the tracker about a value without verdict, then the
tracker will not come to a cycle. -/
def StepReturns (C : Constants γ χ) (s : PassState γ χ) (g : γ) : Prop :=
  (s.globals g).isLeftAlone = false → ∀ init, (s.globals g).ruleInitializer = some init →
    C.needsRelocation init = true → s.evaluated init = .unevaluated →
    NoCycle C s.globals s.evaluated init

theorem step_mono (le : depth ≤ depth') (run : step C depth s g = .ok s') :
    step C depth' s g = .ok s' := by
  simp only [step] at run ⊢
  by_cases alone : (s.globals g).isLeftAlone = true
  · rwa [if_pos alone] at run ⊢
  rw [if_neg alone] at run ⊢
  cases rule : (s.globals g).ruleInitializer with
  | none =>
      rw [rule] at run
      exact run
  | some init =>
      simp only [rule] at run ⊢
      by_cases reloc : C.needsRelocation init = true
      · rw [if_pos reloc] at run ⊢
        obtain ⟨x, asked, rest⟩ := bind_eq_ok.mp run
        exact bind_eq_ok.mpr ⟨x, evaluateInitializer_mono le _ _ _ asked, rest⟩
      · rwa [if_neg reloc] at run ⊢

theorem foldlM_step_mono {order : List γ} (le : depth ≤ depth')
    (run : order.foldlM (step C depth) s = .ok s') : order.foldlM (step C depth') s = .ok s' := by
  induction order generalizing s with
  | nil => exact run
  | cons g order ih =>
      rw [List.foldlM_cons] at run ⊢
      obtain ⟨u, first, rest⟩ := bind_eq_ok.mp run
      exact bind_eq_ok.mpr ⟨u, step_mono le first, ih rest⟩

theorem step_returns_iff [Finite γ] [Finite χ] :
    (∃ depth s', step C depth s g = .ok s') ↔ StepReturns C s g := by
  constructor
  · rintro ⟨depth, s', run⟩ other init rule reloc unknown
    obtain ⟨alone, -⟩ | ⟨-, ⟨none, -⟩ | ⟨init', found, ⟨plain, -⟩ | ⟨-, keep, e, asked, -⟩⟩⟩ :=
      step_cases run
    · rw [other] at alone
      cases alone
    · rw [rule] at none
      cases none
    · rw [rule] at found
      cases found
      rw [reloc] at plain
      cases plain
    · rw [rule] at found
      cases found
      exact finishes_iff_noCycle.mp (evaluateInitializer_returns_iff.mp ⟨depth, _, asked⟩ unknown)
  · intro returns
    simp only [step]
    by_cases alone : (s.globals g).isLeftAlone = true
    · exact ⟨0, s, if_pos alone⟩
    simp only [if_neg alone]
    cases rule : (s.globals g).ruleInitializer with
    | none => exact ⟨0, _, rfl⟩
    | some init =>
        by_cases reloc : C.needsRelocation init = true
        · obtain ⟨depth, ⟨keep, e⟩, asked⟩ := evaluateInitializer_returns_iff.mpr fun unknown =>
            finishes_iff_noCycle.mpr
              (returns (Bool.eq_false_iff.mpr alone) init rule reloc unknown)
          cases keep with
          | false => exact ⟨depth, _, (if_pos reloc).trans (bind_eq_ok.mpr ⟨_, asked, rfl⟩)⟩
          | true => exact ⟨depth, _, (if_pos reloc).trans (bind_eq_ok.mpr ⟨_, asked, rfl⟩)⟩
        · exact ⟨0, s, if_neg reloc⟩

/-- The condition on a whole run: it holds in every iteration that the pass comes to. -/
def Module.Returns (M : Module γ χ) (C : Constants γ χ) : Prop :=
  ∀ depth pre g post s, M.order = pre ++ g :: post → pre.foldlM (step C depth) M.start = .ok s →
    StepReturns C s g

theorem runGlobals_returns_iff (M : Module γ χ) [Finite χ] :
    (∃ depth s, M.runGlobals C depth = .ok s) ↔ M.Returns C := by
  have : Finite γ := Set.finite_univ_iff.mp (M.order.finite_toSet.subset fun g _ => M.complete g)
  constructor
  · rintro ⟨depth, last, run⟩ depth' pre g post s split before
    have run := foldlM_step_mono (Nat.le_max_left depth depth') run
    rw [split, List.foldlM_append] at run
    obtain ⟨u, front, rest⟩ := bind_eq_ok.mp run
    -- both depths come to the same state
    have same := foldlM_step_mono (Nat.le_max_right depth depth') before
    rw [front] at same
    cases same
    rw [List.foldlM_cons] at rest
    obtain ⟨v, here, -⟩ := bind_eq_ok.mp rest
    exact step_returns_iff.mp ⟨_, v, here⟩
  · intro returns
    suffices general : ∀ pre post, M.order = pre ++ post →
        ∃ depth s, pre.foldlM (step C depth) M.start = .ok s from
      general M.order [] (List.append_nil _).symm
    intro pre
    induction pre using List.reverseRecOn with
    | nil => exact fun _ _ => ⟨0, M.start, rfl⟩
    | append_singleton pre g ih =>
        intro post split
        rw [List.append_assoc] at split
        obtain ⟨depth, s, before⟩ := ih _ split
        obtain ⟨depth', t, here⟩ := step_returns_iff.mpr (returns depth pre g post s split before)
        refine ⟨max depth depth', t, ?_⟩
        rw [List.foldlM_append]
        refine bind_eq_ok.mpr ⟨s, foldlM_step_mono (Nat.le_max_left ..) before, ?_⟩
        rw [List.foldlM_cons]
        exact bind_eq_ok.mpr ⟨t, step_mono (Nat.le_max_right ..) here, rfl⟩

/-- The pass returns exactly if no iteration sends the tracker into a cycle. -/
theorem pass_returns_iff (M : Module γ χ) [Finite χ] :
    (∃ depth out, M.run C depth = .ok out) ↔ M.Returns C := by
  rw [← runGlobals_returns_iff]
  constructor
  · rintro ⟨depth, out, run⟩
    obtain ⟨s, globals, -⟩ := bind_eq_ok.mp run
    exact ⟨depth, s, globals⟩
  · rintro ⟨depth, s, globals⟩
    exact ⟨depth, _, bind_eq_ok.mpr ⟨s, globals, rfl⟩⟩

end Pass

/-! ## A constant that points at itself -/

/-- A single number is all there is besides global variables. -/
def scalar (γ : Type) : Constants γ Unit where
  operands := fun _ => []
  isGlobalObject := fun _ => false
  nullValue := fun _ => ()
  needsRelocation
    | .globalVariable _ => true
    | _ => false

/-- `@value = internal constant i64 16`, and an internal constant that is a pointer. -/
inductive Pointing where
  | value
  | pointer
  deriving DecidableEq, Repr

def Pointing.globals (pointee : Pointing) : Pointing → GlobalVariable Pointing Unit
  | value => ⟨"value", .internalLinkage, .defaultVisibility, .notThreadLocal, true, false,
      some (.constant ())⟩
  | pointer => ⟨"pointer", .internalLinkage, .defaultVisibility, .notThreadLocal, true, false,
      some (.globalVariable pointee)⟩

def pointingModule (pointee : Pointing) : Module Pointing Unit where
  globals := Pointing.globals pointee
  order := [.value, .pointer]
  functions := []
  nodup := by decide
  complete := by
    intro g
    cases g <;> decide
  wellFormed := by
    refine ⟨?_, ?_⟩
    · intro g _
      cases g <;> rfl
    · intro g b
      cases g <;> simp [Pointing.globals]

theorem pass_returns_value :
    (∃ depth out, (pointingModule .value).run (scalar Pointing) depth = .ok out) ∧
      (pointingModule .value).Returns (scalar Pointing) := by
  have returns : ((pointingModule .value).run (scalar Pointing) 2).isOk = true := by
    decide +kernel
  cases run : (pointingModule .value).run (scalar Pointing) 2 with
  | error fault =>
      rw [run] at returns
      cases returns
  | ok out => exact ⟨⟨2, out, run⟩, (pass_returns_iff _).mp ⟨2, out, run⟩⟩

/-- The tracker asks about the variable again and again. -/
theorem evaluateInitializer_self (depth : Nat) :
    evaluateInitializer (scalar Pointing) (Pointing.globals .pointer) depth
      (.globalVariable .pointer) (fun _ => .unevaluated) = .error .recursion := by
  induction depth with
  | zero => rfl
  | succ depth ih =>
      have operand : evaluateOperand (scalar Pointing) (Pointing.globals .pointer)
          (evaluateInitializer (scalar Pointing) (Pointing.globals .pointer) depth)
          (.globalVariable .pointer) (fun _ => .unevaluated) = .error .recursion := by
        simp only [evaluateOperand, EvalResult.verdict, judgeOperand, Pointing.globals, scalar]
          at ih ⊢
        rw [if_pos trivial, ih]
        rfl
      simp only [evaluateInitializer, EvalResult.verdict, operandValues, Pointing.globals,
        Option.toList_some, evaluateOperands]
      rw [operand]
      rfl

/-- `@pointer = internal constant ptr @pointer` is never decided. -/
theorem run_self_reference (depth : Nat) :
    (pointingModule .pointer).run (scalar Pointing) depth = .error .recursion := by
  have value : step (scalar Pointing) depth (pointingModule .pointer).start .value =
      .ok (pointingModule .pointer).start := by
    rfl
  have pointer : step (scalar Pointing) depth (pointingModule .pointer).start .pointer =
      .error .recursion := by
    have asked := evaluateInitializer_self depth
    have other : ((pointingModule .pointer).start.globals .pointer).isLeftAlone = false := by
      decide +kernel
    rw [step, other, if_neg Bool.false_ne_true]
    change (evaluateInitializer (scalar Pointing) (Pointing.globals .pointer) depth
      (.globalVariable .pointer) (fun _ => .unevaluated) >>= _) = _
    rw [asked]
    rfl
  rw [Module.run, Module.runGlobals]
  change ((step (scalar Pointing) depth (pointingModule .pointer).start .value >>= fun s =>
    step (scalar Pointing) depth s .pointer >>= fun s => .ok s) >>= _) = _
  rw [value]
  change ((step (scalar Pointing) depth (pointingModule .pointer).start .pointer >>= _) >>= _) = _
  rw [pointer]
  rfl

/-- No depth of recursion is enough for a constant that points at itself. -/
theorem pass_diverges_on_self_reference :
    ¬ ∃ depth out, (pointingModule .pointer).run (scalar Pointing) depth = .ok out := by
  rintro ⟨depth, out, run⟩
  rw [run_self_reference] at run
  cases run

end Monza.CompartmentPass
