import Monza.Lib.Transition
import Mathlib.Data.Set.Piecewise

/-!
# Views of owned memory

Principals look at a shared memory through private views. Addresses have an owner,
possibly nobody. A principal may take memory nobody owns, open memory to its own
view, share memory nobody owns, close its view of its memory, and give memory up
once its view of it is closed. New principals start from a common initial view.

Three results hold over all runs, for predicates `W` and `R` on leaves that stand
for writable and readable. What a principal can write it owns. What it can read
nobody else owns, provided nothing is taken while somebody else can read it. The
initial view lasts, provided sharing never changes it and the principal never takes memory that
it was given initially.
-/

namespace Ownership

open Transition

variable {A O L : Type*}

structure State (A O L : Type*) where
  owner : A → O
  view : O → Option (A → L)

/-- What is fixed for a system: the leaves its operations install and the memory
that can ever get an owner. -/
structure Policy (A O L : Type*) where
  nobody : O
  initial : A → L
  blank : L
  own : A → L
  shared : A → L
  grantable : Set A

inductive Action (A O : Type*) where
  | create (o : O)
  | claim (o : O) (S : Set A)
  | mapOwn (o : O) (S : Set A)
  | mapShared (o : O) (S : Set A)
  | unmap (o : O) (S : Set A)
  | release (o : O) (S : Set A)

section Override

open scoped Classical

variable {S : Set A} {v f : A → L} {x : A}

/-- The first function on a set and the second one elsewhere. -/
noncomputable def override (S : Set A) (v f : A → L) : A → L := S.piecewise v f

theorem override_of_mem (h : x ∈ S) : override S v f x = v x := Set.piecewise_eq_of_mem S v f h

theorem override_of_notMem (h : x ∉ S) : override S v f x = f x :=
  Set.piecewise_eq_of_notMem S v f h

end Override

namespace State

noncomputable def setOwner (s : State A O L) (S : Set A) (o : O) : State A O L :=
  { s with owner := override S (fun _ => o) s.owner }

noncomputable def setView [DecidableEq O] (s : State A O L) (o : O) (S : Set A) (v f : A → L) :
    State A O L :=
  { s with view := Function.update s.view o (some (override S v f)) }

variable {s : State A O L} {S : Set A} {o o' : O} {v f : A → L} {x : A}

theorem setOwner_of_mem (h : x ∈ S) : (s.setOwner S o).owner x = o :=
  override_of_mem (v := fun _ => o) (f := s.owner) h

theorem setOwner_of_notMem (h : x ∉ S) : (s.setOwner S o).owner x = s.owner x :=
  override_of_notMem (v := fun _ => o) (f := s.owner) h

variable [DecidableEq O]

theorem setView_owner : (s.setView o S v f).owner = s.owner := rfl

theorem setView_self : (s.setView o S v f).view o = some (override S v f) :=
  Function.update_self _ _ _

theorem setView_ne (h : o' ≠ o) : (s.setView o S v f).view o' = s.view o' :=
  Function.update_of_ne h _ _

/-- Every leaf of a changed view is a new one or an old one. -/
theorem setView_cases {g : A → L} (present : s.view o = some f)
    (h : (s.setView o S v f).view o' = some g) (x : A) :
    (o' = o ∧ x ∈ S ∧ g x = v x) ∨ ∃ k, s.view o' = some k ∧ g x = k x := by
  by_cases ho : o' = o
  · subst ho
    rw [setView_self] at h
    cases h
    by_cases hx : x ∈ S
    · exact Or.inl ⟨rfl, hx, override_of_mem hx⟩
    · exact Or.inr ⟨f, present, override_of_notMem hx⟩
  · rw [setView_ne ho] at h
    exact Or.inr ⟨g, h, rfl⟩

end State

section

variable [DecidableEq O]

inductive Step (P : Policy A O L) : State A O L → Action A O → State A O L → Prop
  | create {s : State A O L} {o : O} (known : o ≠ P.nobody) (new : s.view o = none) :
      Step P s (.create o) { s with view := Function.update s.view o (some P.initial) }
  | claim {s : State A O L} {o : O} {S : Set A} {f : A → L} (present : s.view o = some f)
      (grantable : ∀ a ∈ S, a ∈ P.grantable) (free : ∀ a ∈ S, s.owner a = P.nobody) :
      Step P s (.claim o S) (s.setOwner S o)
  | mapOwn {s : State A O L} {o : O} {S : Set A} {f : A → L} (present : s.view o = some f)
      (owned : ∀ a ∈ S, s.owner a = o) : Step P s (.mapOwn o S) (s.setView o S P.own f)
  | mapShared {s : State A O L} {o : O} {S : Set A} {f : A → L} (present : s.view o = some f)
      (free : ∀ a ∈ S, s.owner a = P.nobody) :
      Step P s (.mapShared o S) (s.setView o S P.shared f)
  | unmap {s : State A O L} {o : O} {S : Set A} {f : A → L} (present : s.view o = some f)
      (owned : ∀ a ∈ S, s.owner a = o) :
      Step P s (.unmap o S) (s.setView o S (fun _ => P.blank) f)
  | release {s : State A O L} {o : O} {S : Set A} {f : A → L} (present : s.view o = some f)
      (owned : ∀ a ∈ S, s.owner a = o) (closed : ∀ a ∈ S, f a = P.blank) :
      Step P s (.release o S) (s.setOwner S P.nobody)

/-- Memory is only opened to its owner. -/
theorem Step.owned_of_mapOwn {P : Policy A O L} {s t : State A O L} {o : O} {S : Set A} {x : A}
    (step : Step P s (.mapOwn o S) t) (hx : x ∈ S) : ∃ f, s.view o = some f ∧ s.owner x = o := by
  cases step with
  | mapOwn present owned => exact ⟨_, present, owned x hx⟩

/-- After opening its memory, the principal sees its own leaves. -/
theorem Step.own_leaf {P : Policy A O L} {s t : State A O L} {o : O} {S : Set A} {x : A}
    (step : Step P s (.mapOwn o S) t) (hx : x ∈ S) : ∃ f, t.view o = some f ∧ f x = P.own x := by
  cases step with
  | mapOwn present => exact ⟨_, State.setView_self, override_of_mem hx⟩

/-- After sharing, the principal sees the shared leaves. -/
theorem Step.shared_leaf {P : Policy A O L} {s t : State A O L} {o : O} {S : Set A} {x : A}
    (step : Step P s (.mapShared o S) t) (hx : x ∈ S) :
    ∃ f, t.view o = some f ∧ f x = P.shared x := by
  cases step with
  | mapShared present =>
      exact ⟨_, State.setView_self, override_of_mem hx⟩

/-- Nobody has no view, only grantable memory has an owner, and only principals that exist are
owners. -/
structure WellOwned (P : Policy A O L) (s : State A O L) : Prop where
  nobody : s.view P.nobody = none
  granted : ∀ x, s.owner x ≠ P.nobody → x ∈ P.grantable
  owners : ∀ x, s.owner x ≠ P.nobody → s.view (s.owner x) ≠ none

variable {P : Policy A O L} {s t : State A O L} {a : Action A O}

omit [DecidableEq O] in
theorem WellOwned.known (well : WellOwned P s) {o : O} {f : A → L} (h : s.view o = some f) :
    o ≠ P.nobody := by
  rintro rfl
  rw [well.nobody] at h
  cases h

theorem WellOwned.setView (well : WellOwned P s) {o : O} {S : Set A} {v f : A → L}
    (present : s.view o = some f) : WellOwned P (s.setView o S v f) := by
  refine ⟨?_, well.granted, fun x hx => ?_⟩
  · rw [State.setView_ne (well.known present).symm]
    exact well.nobody
  · by_cases same : s.owner x = o
    · rw [State.setView_owner, same, State.setView_self]
      exact Option.some_ne_none _
    · rw [State.setView_owner, State.setView_ne same]
      exact well.owners x hx

theorem WellOwned.step (well : WellOwned P s) (step : Step P s a t) : WellOwned P t := by
  cases step with
  | @create o known new =>
      refine ⟨?_, well.granted, fun x hx => ?_⟩
      · rw [← well.nobody]
        exact Function.update_of_ne known.symm _ _
      · change Function.update s.view o (some P.initial) (s.owner x) ≠ none
        have other : s.owner x ≠ o := fun same => well.owners x hx (same ▸ new)
        rw [Function.update_of_ne other]
        exact well.owners x hx
  | @claim o S f present grantable free =>
      refine ⟨well.nobody, fun x hx => ?_, fun x hx => ?_⟩
      all_goals by_cases h : x ∈ S
      · exact grantable x h
      · rw [State.setOwner_of_notMem h] at hx
        exact well.granted x hx
      · rw [State.setOwner_of_mem h]
        exact present ▸ Option.some_ne_none f
      · rw [State.setOwner_of_notMem h] at hx ⊢
        exact well.owners x hx
  | mapOwn present => exact well.setView present
  | mapShared present => exact well.setView present
  | unmap present => exact well.setView present
  | @release o S f present owned closed =>
      have outside : ∀ x, (s.setOwner S P.nobody).owner x ≠ P.nobody → x ∉ S :=
        fun x hx h => hx (State.setOwner_of_mem h)
      refine ⟨well.nobody, fun x hx => ?_, fun x hx => ?_⟩
      · rw [State.setOwner_of_notMem (outside x hx)] at hx
        exact well.granted x hx
      · have kept := State.setOwner_of_notMem (s := s) (o := P.nobody) (outside x hx)
        rw [kept] at hx ⊢
        exact well.owners x hx

/-- `Q o x w l` relates a principal, an address, its owner and the leaf there. -/
def Leaves (Q : O → A → O → L → Prop) (s : State A O L) : Prop :=
  ∀ o f x, s.view o = some f → Q o x (s.owner x) (f x)

/-- What a property of leaves has to survive, one condition for each action. -/
structure Stable (P : Policy A O L) (Q : O → A → O → L → Prop) (s : State A O L)
    (a : Action A O) : Prop where
  initial : ∀ o x, s.owner x ≠ o → (s.owner x ≠ P.nobody → x ∈ P.grantable) →
    Q o x (s.owner x) (P.initial x)
  claimed : ∀ o S, a = .claim o S → ∀ x ∈ S, x ∈ P.grantable → ∀ o' f, o' ≠ P.nobody →
    s.view o' = some f → Q o' x P.nobody (f x) → Q o' x o (f x)
  own : ∀ o x l, x ∈ P.grantable → Q o x o l → Q o x o (P.own x)
  shared : ∀ o S, a = .mapShared o S → ∀ x ∈ S, o ≠ P.nobody → Q o x P.nobody (P.shared x)
  blank : ∀ o x l, x ∈ P.grantable → Q o x o l → Q o x o P.blank
  released : ∀ o o' x l, x ∈ P.grantable → o' ≠ P.nobody → (o' = o → l = P.blank) →
    Q o' x o l → Q o' x P.nobody l

theorem Leaves.setView {Q : O → A → O → L → Prop} (leaves : Leaves Q s) {o : O} {S : Set A}
    {v f : A → L} (present : s.view o = some f)
    (new : ∀ x ∈ S, Q o x (s.owner x) (f x) → Q o x (s.owner x) (v x)) :
    Leaves Q (s.setView o S v f) := by
  intro o' g x h
  rcases State.setView_cases present h x with ⟨rfl, hx, heq⟩ | ⟨k, hk, heq⟩
  · rw [heq]
    exact new x hx (leaves o' f x present)
  · rw [heq]
    exact leaves o' k x hk

theorem Leaves.step {Q : O → A → O → L → Prop} (leaves : Leaves Q s) (well : WellOwned P s)
    (stable : Stable P Q s a) (step : Step P s a t) : Leaves Q t := by
  cases step with
  | @create o known new =>
      intro o' f x h
      by_cases ho : o' = o
      · subst ho
        obtain rfl := Option.some.inj ((Function.update_self o' _ s.view).symm.trans h)
        refine stable.initial o' x (fun same => ?_) (well.granted x)
        exact well.owners x (same ▸ known) (same ▸ new)
      · exact leaves o' f x ((Function.update_of_ne ho _ s.view).symm.trans h)
  | @claim o S k present grantable free =>
      intro o' f x h
      by_cases hx : x ∈ S
      · rw [State.setOwner_of_mem hx]
        refine stable.claimed o S rfl x hx (grantable x hx) o' f (well.known h) h ?_
        rw [← free x hx]
        exact leaves o' f x h
      · rw [State.setOwner_of_notMem hx]
        exact leaves o' f x h
  | @mapOwn o S f present owned =>
      refine leaves.setView present (fun x hx before => ?_)
      rw [owned x hx] at before ⊢
      exact stable.own o x (f x) (well.granted x (owned x hx ▸ well.known present)) before
  | @mapShared o S f present free =>
      refine leaves.setView present (fun x hx _ => ?_)
      rw [free x hx]
      exact stable.shared o S rfl x hx (well.known present)
  | @unmap o S f present owned =>
      refine leaves.setView present (fun x hx before => ?_)
      rw [owned x hx] at before ⊢
      exact stable.blank o x (f x) (well.granted x (owned x hx ▸ well.known present)) before
  | @release o S f present owned closed =>
      intro o' g x h
      by_cases hx : x ∈ S
      · rw [State.setOwner_of_mem hx]
        refine stable.released o o' x (g x) (well.granted x (owned x hx ▸ well.known present))
          (well.known h) ?_ (owned x hx ▸ leaves o' g x h)
        rintro rfl
        obtain rfl := Option.some.inj (present.symm.trans h)
        exact closed x hx
      · rw [State.setOwner_of_notMem hx]
        exact leaves o' g x h

theorem WellOwned.run {as : List (Action A O)} (run : Run (Step P) s as t)
    (well : WellOwned P s) : WellOwned P t :=
  run.invariant (WellOwned P) (fun _ _ _ well step => well.step step) well

/-- Over a run, the first action may be judged in the state it is taken in. -/
theorem Leaves.run {Q : O → A → O → L → Prop} {as : List (Action A O)}
    (run : Run (Step P) s as t) (leaves : Leaves Q s) (well : WellOwned P s)
    (first : ∀ a ∈ as.head?, Stable P Q s a) (rest : ∀ a ∈ as.tail, ∀ u, Stable P Q u a) :
    Leaves Q t := by
  induction run with
  | nil s => exact leaves
  | @cons s u t a as step _ ih =>
      refine ih (leaves.step well (first a rfl) step) (well.step step) (fun b hb => ?_)
        (fun b hb => rest b (List.mem_of_mem_tail hb))
      exact rest b (List.mem_of_mem_head? hb) u

end

section Results

variable {P : Policy A O L} {s : State A O L} {a : Action A O} {W R : L → Prop}

/-- Writable leaves are only ever installed for the owner. -/
theorem writes_stable (initial : ∀ x, ¬ W (P.initial x)) (shared : ∀ x, ¬ W (P.shared x))
    (blank : ¬ W P.blank) : Stable P (fun o _ w l => W l → w = o) s a where
  initial _ x _ _ h := absurd h (initial x)
  claimed _ _ _ _ _ _ _ _ known _ before h := absurd (before h).symm known
  own _ _ _ _ _ _ := rfl
  shared _ _ _ x _ _ h := absurd h (shared x)
  blank _ _ _ _ _ h := absurd h blank
  released _ _ _ _ _ _ closed before h := absurd (closed (before h).symm ▸ h) blank

/-- Readable leaves need a condition on claims: sharing is not revoked by them. -/
theorem reads_stable (initial : ∀ x, R (P.initial x) → x ∉ P.grantable) (blank : ¬ R P.blank)
    (unshared : ∀ o S, a = .claim o S → ∀ x ∈ S, ∀ o' f, o' ≠ o → s.view o' = some f →
      ¬ R (f x)) :
    Stable P (fun o _ w l => R l → w = o ∨ w = P.nobody) s a where
  initial _ x _ granted h := Or.inr (by_contra fun hw => initial x h (granted hw))
  claimed o S ha x hx _ o' f _ present _ h :=
    Or.inl (by_contra fun ho => unshared o S ha x hx o' f (Ne.symm ho) present h)
  own _ _ _ _ _ _ := Or.inl rfl
  shared _ _ _ _ _ _ _ := Or.inr rfl
  blank _ _ _ _ _ h := absurd h blank
  released _ _ _ _ _ _ _ _ _ := Or.inr rfl

/-- What a principal was given initially lasts and never becomes its own, if it takes nothing of
that and sharing does not change it. -/
theorem initial_stable {installed : Set A} {p : O}
    (taken : ∀ S, a = .claim p S → ∀ x ∈ S, x ∉ installed)
    (same : ∀ S, a = .mapShared p S → ∀ x ∈ S, x ∈ installed → P.shared x = P.initial x) :
    Stable P (fun o x w l => o = p → x ∈ installed → w ≠ p ∧ l = P.initial x) s a where
  initial _ _ free _ ho _ := ⟨ho ▸ free, rfl⟩
  claimed _ S ha x hx _ _ _ _ _ before ho h :=
    ⟨fun same => taken S (same ▸ ha) x hx h, (before ho h).2⟩
  own _ _ _ _ before ho h := absurd ho (before ho h).1
  shared _ S ha x hx known ho h := ⟨fun none => known (ho.trans none.symm), same S (ho ▸ ha) x hx h⟩
  blank _ _ _ _ before ho h := absurd ho (before ho h).1
  released _ _ _ _ _ known _ before ho h :=
    ⟨fun none => known (ho.trans none.symm), (before ho h).2⟩

/-- A property of leaves and addresses that everything installed there has. -/
theorem leaf_stable {R : A → L → Prop} (initial : ∀ x, R x (P.initial x))
    (own : ∀ x ∈ P.grantable, R x (P.own x)) (shared : ∀ x, R x (P.shared x))
    (blank : ∀ x ∈ P.grantable, R x P.blank) : Stable P (fun _ x _ l => R x l) s a where
  initial _ x _ _ := initial x
  claimed _ _ _ _ _ _ _ _ _ _ before := before
  own _ x _ hx _ := own x hx
  shared _ _ _ x _ _ := shared x
  blank _ x _ hx _ := blank x hx
  released _ _ _ _ _ _ _ before := before

end Results

end Ownership
