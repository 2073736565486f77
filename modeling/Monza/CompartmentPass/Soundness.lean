import Monza.CompartmentPass.Run

/-!
# Constants that stay point at variables that stay

A variable kept by the constant rule has an initializer the tracker accepted. What the pass
owes is that no variable mentioned there becomes thread-local. An operand is only accepted
when it is constant with local linkage and its own initializer is accepted, so that the pass
will keep it as well; the verdicts are justified in this sense (`Justified`), and each
iteration keeps them so. An initializer that is itself a global variable is different: its
operands are judged, but not the variable. The pass is sound exactly if whenever it
accepts such an initializer the variable is one that stays (`Trusted`).
-/

namespace Monza.CompartmentPass

open Outcome

section Invariant

variable {γ χ : Type}

/-- A variable that is in global memory and that the pass does not move. -/
def Settled (globals : γ → GlobalVariable γ χ) (g : γ) : Prop :=
  (globals g).isThreadLocal = false ∧ ((globals g).isLeftAlone = true ∨
    (globals g).isConstant = true ∧ (globals g).hasLocalLinkage = true)

/-- Every verdict to keep is supported by the module and by other such verdicts. -/
structure Justified (C : Constants γ χ) (globals : γ → GlobalVariable γ χ) (e : Evaluated γ χ) :
    Prop where
  globalVariable : ∀ g, e (.globalVariable g) = .mayKeep → Settled globals g ∧
    ∀ init, (globals g).initializer = some init → C.needsRelocation init = true →
      MayKeep C globals e init
  constant : ∀ c, e (.constant c) = .mayKeep → C.needsRelocation (.constant c) = true →
    ∀ op ∈ C.operands c, MayKeep C globals e op
  plain : ∀ c, C.needsRelocation (.constant c) = false → e (.constant c) ≠ .mustMove

variable {C : Constants γ χ} {globals : γ → GlobalVariable γ χ} {e e₁ : Evaluated γ χ}
variable {v : Value γ χ} {g : γ}

theorem settled_of_keepable (keep : keepable globals g = true) : Settled globals g := by
  simp only [keepable, Bool.and_eq_true, Bool.not_eq_true'] at keep
  exact ⟨keep.1.2, .inr ⟨keep.1.1, keep.2⟩⟩

namespace Justified

theorem initializer (h : Justified C globals e) (keep : MayKeep C globals e (.globalVariable g)) :
    Settled globals g ∧ ∀ init, (globals g).initializer = some init →
      C.needsRelocation init = true → MayKeep C globals e init := by
  cases keep with
  | known known => exact h.globalVariable g known
  | globalVariable _ keep inner => exact ⟨settled_of_keepable keep, inner⟩

theorem operands (h : Justified C globals e) {c : χ}
    (keep : MayKeep C globals e (.constant c)) (reloc : C.needsRelocation (.constant c) = true) :
    ∀ op ∈ C.operands c, MayKeep C globals e op := by
  cases keep with
  | known known => exact h.constant c known reloc
  | constant _ inner => exact inner reloc

/-- What an accepted value mentions is settled. -/
theorem settled (h : Justified C globals e) (relocates : C.Relocates)
    (keep : MayKeep C globals e v) (mentions : Mentions C v g) : Settled globals g := by
  induction mentions with
  | here g => exact (h.initializer keep).1
  | operand object mem inner ih =>
      have reloc := relocates _ _ (.operand object mem inner)
      exact ih (h.operands keep reloc _ mem)

end Justified

theorem Consistent.mayKeep (h : Consistent C globals e e₁) (keep : MayKeep C globals e v) :
    MayKeep C globals e₁ v := by
  induction keep with
  | @known v known =>
      obtain same | ⟨unknown, -⟩ := h v
      · exact .known (same.trans known)
      · rw [known] at unknown
        cases unknown
  | @globalVariable g unknown keep inner ih =>
      obtain same | ⟨-, r, verdict, right⟩ := h (.globalVariable g)
      · exact .globalVariable (same.trans unknown) keep ih
      · have accepted : r = true := right.mpr (.globalVariable unknown keep inner)
        exact .known (verdict.trans (EvalResult.ofBool_eq_mayKeep.mpr accepted))
  | @constant c unknown inner ih =>
      obtain same | ⟨-, r, verdict, right⟩ := h (.constant c)
      · exact .constant (same.trans unknown) ih
      · have accepted : r = true := right.mpr (.constant unknown inner)
        exact .known (verdict.trans (EvalResult.ofBool_eq_mayKeep.mpr accepted))

/-- Right verdicts are justified. -/
theorem Justified.extend (h : Justified C globals e) (after : Consistent C globals e e₁) :
    Justified C globals e₁ where
  globalVariable := by
    intro g known
    have keep := (after.verdict (r := true) known).mp rfl
    obtain ⟨settled, inner⟩ := h.initializer keep
    exact ⟨settled, fun init here reloc => after.mayKeep (inner init here reloc)⟩
  constant := by
    intro c known reloc op mem
    have keep := (after.verdict (r := true) known).mp rfl
    exact after.mayKeep (h.operands keep reloc op mem)
  plain := by
    intro c plain known
    obtain same | ⟨unknown, -⟩ := after (.constant c)
    · exact h.plain c plain (same.symm.trans known)
    · have keep : MayKeep C globals e (.constant c) :=
        .constant unknown (fun reloc => absurd (plain.symm.trans reloc) Bool.false_ne_true)
      have accepted := (after.verdict (r := false) known).mpr keep
      cases accepted

/-- An initializer of a well-formed module that needs no relocation is an acceptable operand. -/
theorem Justified.mayKeep_plain (h : Justified C globals e) (relocates : C.Relocates)
    (wellFormed : WellFormed globals) {init : Value γ χ}
    (found : (globals g).initializer = some init) (plain : C.needsRelocation init = false) :
    MayKeep C globals e init := by
  cases init with
  | globalVariable k =>
      have reloc := relocates _ _ (.here k)
      rw [plain] at reloc
      cases reloc
  | constant c =>
      cases known : e (.constant c) with
      | unevaluated => exact .constant known (by simp [plain])
      | mustMove => exact absurd known (h.plain c plain)
      | mayKeep => exact .known known
  | basicBlock b => exact absurd found (wellFormed.constant g b)

variable [DecidableEq γ]

/-- Moving a variable that is not acceptable takes no support away. -/
theorem MayKeep.move {gv : GlobalVariable γ χ} (keep : MayKeep C globals e v)
    (notKept : ¬ MayKeep C globals e (.globalVariable g)) :
    MayKeep C (Function.update globals g gv) e v := by
  induction keep with
  | known known => exact .known known
  | @globalVariable k unknown keep inner ih =>
      have other : k ≠ g := by
        rintro rfl
        exact notKept (.globalVariable unknown keep inner)
      refine .globalVariable unknown ?_ ?_
      · rw [keepable, Function.update_of_ne other]
        exact keep
      · rw [Function.update_of_ne other]
        exact ih
  | constant unknown _ ih => exact .constant unknown ih

theorem Justified.move (h : Justified C globals e) {gv : GlobalVariable γ χ}
    (notKept : ¬ MayKeep C globals e (.globalVariable g)) :
    Justified C (Function.update globals g gv) e where
  globalVariable := by
    intro k known
    have other : k ≠ g := by
      rintro rfl
      exact notKept (.known known)
    obtain ⟨settled, inner⟩ := h.globalVariable k known
    rw [Settled, Function.update_of_ne other]
    exact ⟨settled, fun init found reloc => (inner init found reloc).move notKept⟩
  constant := by
    intro c known reloc op mem
    exact (h.constant c known reloc op mem).move notKept
  plain := h.plain

variable [DecidableEq χ]

theorem MayKeep.store (keep : MayKeep C globals e v) (w : Value γ χ) :
    MayKeep C globals (Function.update e w .mayKeep) v := by
  have stored : ∀ {u}, u = w → Function.update e w EvalResult.mayKeep u = .mayKeep := by
    rintro u rfl
    exact Function.update_self ..
  induction keep with
  | @known v known =>
      refine .known ?_
      by_cases here : v = w
      · exact stored here
      · rw [Function.update_of_ne here, known]
  | @globalVariable g unknown keep _ ih =>
      by_cases here : .globalVariable g = w
      · exact .known (stored here)
      · exact .globalVariable ((Function.update_of_ne here ..).trans unknown) keep ih
  | @constant c unknown _ ih =>
      by_cases here : .constant c = w
      · exact .known (stored here)
      · exact .constant ((Function.update_of_ne here ..).trans unknown) ih

/-- A variable accepted as an initializer, if it is one that stays. -/
theorem Justified.store (h : Justified C globals e) (settled : Settled globals g)
    (inner : ∀ init, (globals g).initializer = some init → MayKeep C globals e init) :
    Justified C globals (Function.update e (.globalVariable g) .mayKeep) where
  globalVariable := by
    intro k known
    by_cases here : k = g
    · subst here
      exact ⟨settled, fun init found _ => (inner init found).store _⟩
    · have other : Value.globalVariable k ≠ (.globalVariable g : Value γ χ) := by
        simpa using here
      rw [Function.update_of_ne other] at known
      obtain ⟨settled, inner⟩ := h.globalVariable k known
      exact ⟨settled, fun init found reloc => (inner init found reloc).store _⟩
  constant := by
    intro c known reloc op mem
    rw [Function.update_of_ne (by simp)] at known
    exact (h.constant c known reloc op mem).store _
  plain := by
    intro c plain
    rw [Function.update_of_ne (by simp)]
    exact h.plain c plain

/-- A query of the pass. Only for an initializer that is a global variable does it take more than
the tracker's answer to justify the verdict. -/
theorem Justified.query (h : Justified C globals e) (relocates : C.Relocates)
    (wellFormed : WellFormed globals) {depth : Nat} {r : Bool} {init : Value γ χ}
    (found : (globals g).initializer = some init) (reloc : C.needsRelocation init = true)
    (run : evaluateInitializer C globals depth init e = .ok (r, e₁))
    (trusted : r = true → ∀ k, init = .globalVariable k → Settled globals k) :
    Justified C globals e₁ ∧ ∀ w, MayKeep C globals e w → MayKeep C globals e₁ w := by
  obtain ⟨right, -, rfl | ⟨unknown, e₂, after, rfl⟩⟩ := evaluateInitializer_spec run
  · exact ⟨h, fun _ keep => keep⟩
  have right : r = true ↔ ∃ ops, operandValues C globals init = some ops ∧
      ∀ op ∈ ops, MayKeep C globals e op := by simpa [InitMayKeep, unknown] using right
  -- a verdict that is right for an operand, too, is one more right verdict
  have of_consistent : (r = true ↔ MayKeep C globals e init) →
      Justified C globals (Function.update e₂ init (.ofBool r)) ∧
        ∀ w, MayKeep C globals e w →
          MayKeep C globals (Function.update e₂ init (.ofBool r)) w := by
    intro same
    have all := after.set unknown same
    exact ⟨h.extend all, fun _ => all.mayKeep⟩
  cases init with
  | basicBlock b => exact absurd found (wellFormed.constant g b)
  | constant c =>
      apply of_consistent
      rw [right, mayKeep_constant unknown]
      simp [operandValues, reloc]
  | globalVariable k =>
      cases r with
      | true =>
          obtain ⟨ops, operands, keep⟩ := right.mp rfl
          cases operands
          refine ⟨(h.extend after).store (trusted rfl k rfl) ?_, ?_⟩
          · intro init here
            exact after.mayKeep (keep init (Option.mem_toList.mpr here))
          · intro w keep
            exact (after.mayKeep keep).store _
      | false =>
          apply of_consistent
          refine ⟨fun no => absurd no Bool.false_ne_true, fun keep => right.mpr ⟨_, rfl, ?_⟩⟩
          intro init mem
          have here := Option.mem_toList.mp mem
          cases needs : C.needsRelocation init with
          | true => exact (h.initializer keep).2 init here needs
          | false => exact h.mayKeep_plain relocates wellFormed here needs

end Invariant

section Loop

variable {γ χ : Type}

/-- A constant that the rule keeps mentions no thread-local variable. -/
def Sound (C : Constants γ χ) (globals : γ → GlobalVariable γ χ) : Prop :=
  ∀ g, (globals g).isLeftAlone = false → (globals g).isThreadLocal = false →
    ∀ init, (globals g).initializer = some init → C.needsRelocation init = true →
      ∀ k, Mentions C init k → (globals k).isThreadLocal = false

/-- At this iteration no variable is accepted as an initializer that will not stay. -/
def TrustedStep (C : Constants γ χ) (s : PassState γ χ) (g : γ) : Prop :=
  ∀ k, (s.globals g).isLeftAlone = false →
    (s.globals g).ruleInitializer = some (.globalVariable k) →
    InitMayKeep C s.globals s.evaluated (.globalVariable k) → Settled s.globals k

/-- What the loop maintains: of the variables met, those that stay have accepted initializers. -/
structure Kept (C : Constants γ χ) (pre : List γ) (s : PassState γ χ) : Prop where
  wellFormed : WellFormed s.globals
  justified : Justified C s.globals s.evaluated
  accepted : ∀ g ∈ pre, (s.globals g).isLeftAlone = false →
    (s.globals g).isThreadLocal = false → ∀ init, (s.globals g).initializer = some init →
      C.needsRelocation init = true → MayKeep C s.globals s.evaluated init

variable {C : Constants γ χ} {s s' : PassState γ χ} {g : γ} {pre : List γ}

theorem Kept.sound (h : Kept C pre s) (relocates : C.Relocates) (all : ∀ g, g ∈ pre) :
    Sound C s.globals := by
  intro g alone stays init found reloc k mentions
  have keep := h.accepted g (all g) alone stays init found reloc
  exact (h.justified.settled relocates keep mentions).1

/-- An iteration that keeps its variable. -/
theorem Kept.keep (h : Kept C pre s)
    (accepted : (s.globals g).isLeftAlone = false → ∀ init, (s.globals g).initializer = some init →
      C.needsRelocation init = true → MayKeep C s.globals s.evaluated init) :
    Kept C (pre ++ [g]) s where
  wellFormed := h.wellFormed
  justified := h.justified
  accepted := by
    intro k mem alone stays init found reloc
    obtain mem | mem := List.mem_append.mp mem
    · exact h.accepted k mem alone stays init found reloc
    · cases List.mem_singleton.mp mem
      exact accepted alone init found reloc

/-- A variable that could be kept is considered by the constant rule. -/
theorem Kept.rule (h : Kept C pre s) (alone : (s.globals g).isLeftAlone = false)
    (keep : MayKeep C s.globals s.evaluated (.globalVariable g)) :
    ∃ init, (s.globals g).ruleInitializer = some init ∧
      (C.needsRelocation init = true → MayKeep C s.globals s.evaluated init) := by
  obtain ⟨⟨stays, why⟩, inner⟩ := h.justified.initializer keep
  rw [alone] at why
  obtain ⟨const, localLinkage⟩ := why.resolve_left (by simp)
  have keepable : keepable s.globals g = true := by simp [keepable, const, stays, localLinkage]
  obtain ⟨init, found⟩ := Option.isSome_iff_exists.mp (h.wellFormed.defined g localLinkage)
  refine ⟨init, ?_, fun reloc => inner init found reloc⟩
  rw [rule_of_keepable keepable, found]

variable [DecidableEq γ]

theorem WellFormed.move {globals : γ → GlobalVariable γ χ} (h : WellFormed globals) :
    WellFormed (Function.update globals g (moved C g (globals g))) where
  defined := by
    intro k localLinkage
    by_cases here : k = g
    · subst here
      rw [Function.update_self] at localLinkage ⊢
      simp only [moved]
      split
      · rfl
      · exact h.defined k localLinkage
    · rw [Function.update_of_ne here] at localLinkage ⊢
      exact h.defined k localLinkage
  constant := by
    intro k b
    by_cases here : k = g
    · subst here
      rw [Function.update_self]
      simp only [moved]
      split
      · simp
      · exact h.constant k b
    · rw [Function.update_of_ne here]
      exact h.constant k b

/-- An iteration that moves its variable. -/
theorem Kept.move (h : Kept C pre s)
    (notKept : ¬ MayKeep C s.globals s.evaluated (.globalVariable g)) :
    Kept C (pre ++ [g]) (s.move C g) where
  wellFormed := h.wellFormed.move
  justified := h.justified.move notKept
  accepted := by
    intro k mem alone stays init found reloc
    by_cases here : k = g
    · subst here
      simp [PassState.move] at stays
    · have mem : k ∈ pre := by simpa [here] using mem
      simp only [PassState.move, Function.update_of_ne here] at alone stays found
      exact (h.accepted k mem alone stays init found reloc).move notKept

variable [DecidableEq χ] {depth : Nat}

/-- Step lemma. -/
theorem Kept.step (h : Kept C pre s) (relocates : C.Relocates)
    (trusted : TrustedStep C s g) (run : step C depth s g = .ok s') : Kept C (pre ++ [g]) s' := by
  obtain ⟨alone, rfl⟩ | ⟨alone, step⟩ := step_cases run
  · apply h.keep
    intro other
    rw [alone] at other
    cases other
  obtain ⟨rule, rfl⟩ | ⟨init, rule, step⟩ := step
  · apply h.move
    intro keep
    obtain ⟨init, found, -⟩ := h.rule alone keep
    rw [rule] at found
    cases found
  have found := (keepable_of_rule rule).2
  obtain ⟨plain, rfl⟩ | ⟨reloc, keep, e, asked, rfl⟩ := step
  · apply h.keep
    intro _ init' found' reloc
    rw [found] at found'
    cases found'
    rw [plain] at reloc
    cases reloc
  obtain ⟨right, verdict, -⟩ := evaluateInitializer_spec asked
  have trusted : keep = true → ∀ k, init = .globalVariable k → Settled s.globals k := by
    rintro kept k rfl
    exact trusted k alone rule (right.mp kept)
  obtain ⟨justified, grows⟩ :=
    h.justified.query relocates h.wellFormed found reloc asked trusted
  have h' : Kept C pre { s with evaluated := e } :=
    ⟨h.wellFormed, justified, fun k mem alone stays init found reloc =>
      grows _ (h.accepted k mem alone stays init found reloc)⟩
  cases keep with
  | true =>
      apply h'.keep
      intro _ init' found' _
      rw [found] at found'
      cases found'
      exact .known verdict
  | false =>
      apply h'.move
      intro keep
      obtain ⟨init', rule', inner⟩ := h'.rule alone keep
      rw [rule] at rule'
      cases rule'
      exact not_mayKeep_of_mustMove verdict (inner reloc)

/-- In every iteration that the loop gets to. -/
def Module.Trusted (M : Module γ χ) (C : Constants γ χ) (depth : Nat) : Prop :=
  ∀ pre g post s, M.order = pre ++ g :: post →
    pre.foldlM (CompartmentPass.step C depth) M.start = .ok s → TrustedStep C s g

/-- Run lemma. -/
theorem Module.Trusted.kept {M : Module γ χ} (trusted : M.Trusted C depth)
    (relocates : C.Relocates) (run : M.runGlobals C depth = .ok s) : Kept C M.order s := by
  refine foldlM_rule (Kept C) run ?_ ?_
  · exact ⟨M.wellFormed, ⟨nofun, nofun, nofun⟩, by simp⟩
  · intro pre g post u u' split before h last
    exact h.step relocates (trusted pre g post u split before) last

/-- Iterations do not touch the variables of others. -/
theorem globals_of_foldlM {post : List γ} (run : post.foldlM (step C depth) s = .ok s')
    (other : g ∉ post) : s'.globals g = s.globals g := by
  refine foldlM_rule (fun pre s' => g ∉ pre → s'.globals g = s.globals g) run (fun _ => rfl) ?_
    other
  intro pre k post u u' _ _ ih last other
  simp only [List.mem_append, List.mem_singleton, not_or] at other
  cases step_met last with
  | kept _ globals _ => rw [globals, ih other.1]
  | moved _ globals _ => rw [globals, Function.update_of_ne other.2, ih other.1]

/-- A variable that is in global memory after the pass was settled at any time. -/
theorem settled_of_final {M : Module γ χ} {k : γ} {post : List γ} {u : PassState γ χ}
    (split : M.order = pre ++ post) (before : pre.foldlM (step C depth) M.start = .ok u)
    (after : post.foldlM (step C depth) u = .ok s) (run : M.runGlobals C depth = .ok s)
    (stays : (s.globals k).isThreadLocal = false) : Settled u.globals k := by
  obtain ⟨moves, final⟩ := exists_moves (List.append_nil _).symm run
  obtain ⟨early, first⟩ := exists_moves split before
  have notMoved : k ∉ moves := by
    intro mem
    rw [final.globals, if_pos mem] at stays
    cases stays
  have notEarly : k ∉ early := by
    intro mem
    have nodup := M.nodup
    rw [split, List.nodup_append] at nodup
    have later : k ∉ post := fun mem' => nodup.2.2 k (first.sub.subset mem) k mem' rfl
    rw [globals_of_foldlM after later, first.globals, if_pos mem] at stays
    cases stays
  have same : s.globals k = M.globals k := by rw [final.globals, if_neg notMoved]
  have same' : u.globals k = M.globals k := by rw [first.globals, if_neg notEarly]
  rw [same] at stays
  rw [Settled, same']
  obtain alone | keep := final.kept k (M.complete k) notMoved
  · exact ⟨stays, .inl alone⟩
  · exact settled_of_keepable keep

/-- A pass that is sound trusts no variable that it moves. -/
theorem Module.trusted_of_sound {M : Module γ χ} (relocates : C.Relocates)
    (run : M.runGlobals C depth = .ok s) (sound : Sound C s.globals) : M.Trusted C depth := by
  intro pre g post u split before k alone rule accepts
  have whole : (g :: post).foldlM (step C depth) u = .ok s := by
    have whole := run
    rw [Module.runGlobals, split, List.foldlM_append, before] at whole
    exact whole
  obtain ⟨u', last, rest⟩ := bind_eq_ok.mp whole
  have reloc : C.needsRelocation (.globalVariable k) = true := relocates _ _ (.here k)
  -- the iteration accepts the variable and keeps the constant that points at it
  have same : u'.globals = u.globals := by
    obtain ⟨alone', -⟩ | ⟨-, step⟩ := step_cases last
    · rw [alone] at alone'
      cases alone'
    rw [rule] at step
    obtain ⟨no, -⟩ | ⟨init, found, ⟨plain, -⟩ | ⟨-, keep, e, asked, rfl⟩⟩ := step
    · cases no
    · cases found
      rw [reloc] at plain
      cases plain
    · cases found
      have kept : keep = true := (evaluateInitializer_spec asked).1.mpr accepts
      rw [kept]
      rfl
  have final : s.globals g = u.globals g := by
    rw [globals_of_foldlM rest (notMem_of_split split).2, same]
  obtain ⟨keep, found⟩ := keepable_of_rule rule
  have stays : (s.globals k).isThreadLocal = false := by
    refine sound g ?_ ?_ (.globalVariable k) ?_ reloc k (.here k)
    · rw [final, alone]
    · rw [final]
      exact (settled_of_keepable keep).1
    · rw [final, found]
  exact settled_of_final split before whole run stays

end Loop

/-- In the sample only `@pointer` is a constant that points at a variable, and `@a` stays. -/
theorem trusted_sampleModule : (sampleModule .a).Trusted (numbers Sample) 2 := by
  intro pre g post s split before k _ rule _
  have same : s.globals g = Sample.globals .a g :=
    globals_of_foldlM before (notMem_of_split split).1
  rw [same] at rule
  cases g with
  | a => cases rule
  | x => cases rule
  | z => cases rule
  | pointer =>
      cases rule
      have first : pre = [.a, .x, .z] := by
        rcases pre with _ | ⟨p, _ | ⟨q, _ | ⟨r, _ | ⟨t, pre⟩⟩⟩⟩ <;> simp_all [sampleModule]
      subst first
      have kept : (([.a, .x, .z] : List Sample).foldlM (step (numbers Sample) 2)
          (sampleModule .a).start).map (·.globals .a) = .ok (Sample.globals .a .a) := by
        decide +kernel
      rw [before] at kept
      have stays : s.globals .a = Sample.globals .a .a := Except.ok.inj kept
      rw [Settled, stays]
      decide

/-- For every module on which the pass returns: no constant that the rule keeps points at a
variable that is thread-local afterwards, exactly if no iteration accepts a variable as the whole
initializer of a constant that will not stay itself. -/
theorem kept_constants_point_at_kept_variables_iff {γ χ : Type} [DecidableEq γ] [DecidableEq χ]
    (C : Constants γ χ) (M : Module γ χ) (depth : Nat) (out : Compiled γ χ)
    (relocates : C.Relocates) (run : M.run C depth = .ok out) :
    Sound C out.globals ↔ M.Trusted C depth := by
  obtain ⟨s, loop, same⟩ := bind_eq_ok.mp run
  cases same
  constructor
  · intro sound
    exact Module.trusted_of_sound relocates loop sound
  · intro trusted
    exact (trusted.kept relocates loop).sound relocates M.complete

/-- The pass as used in its tests: a pointer to a constant that stays. -/
theorem kept_constants_point_at_kept_variables_sample :
    (numbers Sample).Relocates ∧ (sampleModule .a).Trusted (numbers Sample) 2 ∧
      ∃ out, (sampleModule .a).run (numbers Sample) 2 = .ok out ∧
        Sound (numbers Sample) out.globals := by
  refine ⟨numbers_relocates Sample, trusted_sampleModule, ?_⟩
  cases run : (sampleModule .a).run (numbers Sample) 2 with
  | error fault =>
      have returns : ((sampleModule .a).run (numbers Sample) 2).isOk = true := by decide +kernel
      rw [run] at returns
      cases returns
  | ok out =>
      exact ⟨out, rfl, (kept_constants_point_at_kept_variables_iff _ _ _ _
        (numbers_relocates Sample) run).mpr trusted_sampleModule⟩

/-- A pointer to a variable that the same pass has moved is kept as a constant. -/
theorem kept_constant_points_at_moved_variable :
    (numbers Sample).Relocates ∧ ∃ out, (sampleModule .x).run (numbers Sample) 2 = .ok out ∧
      (out.globals .pointer).isThreadLocal = false ∧
      (out.globals .pointer).initializer = some (.globalVariable .x) ∧
      (out.globals .x).isThreadLocal = true ∧ ¬ Sound (numbers Sample) out.globals := by
  refine ⟨numbers_relocates Sample, ?_⟩
  have result : ((sampleModule .x).run (numbers Sample) 2).map (fun out =>
      (out.globals .pointer, (out.globals .x).isThreadLocal)) =
      .ok (Sample.globals .x .pointer, true) := by decide +kernel
  cases run : (sampleModule .x).run (numbers Sample) 2 with
  | error fault =>
      rw [run] at result
      cases result
  | ok out =>
      rw [run] at result
      obtain ⟨pointer, x⟩ := Prod.mk.inj (Except.ok.inj result)
      refine ⟨out, rfl, by rw [pointer]; rfl, by rw [pointer]; rfl, x, ?_⟩
      intro sound
      have stays := sound .pointer (by rw [pointer]; decide) (by rw [pointer]; rfl)
        (.globalVariable .x) (by rw [pointer]; rfl) rfl .x (.here _)
      rw [x] at stays
      cases stays

end Monza.CompartmentPass
