import Mathlib.Logic.Basic

/-!
# Runs of labelled transition systems

A system is a relation between a state, a label and a next state. Runs list the
labels taken. An invariant is proved from what one step keeps; restricting the
steps to those that meet a condition gives the invariants that need it.
-/

namespace Transition

variable {σ α : Type*} {step : σ → α → σ → Prop} {s t u : σ} {a : α} {as bs : List α}

/-- Runs from the first label on. -/
inductive Run (step : σ → α → σ → Prop) : σ → List α → σ → Prop
  | nil (s : σ) : Run step s [] s
  | cons {s t u : σ} {a : α} {as : List α} : step s a t → Run step t as u → Run step s (a :: as) u

namespace Run

theorem append (run : Run step s as t) (rest : Run step t bs u) : Run step s (as ++ bs) u := by
  induction run with
  | nil s => exact rest
  | cons first _ ih => exact .cons first (ih rest)

theorem of_append (run : Run step s (as ++ bs) u) : ∃ t, Run step s as t ∧ Run step t bs u := by
  induction as generalizing s with
  | nil => exact ⟨s, .nil s, run⟩
  | cons a as ih =>
      cases run with
      | cons first rest =>
          obtain ⟨t, front, back⟩ := ih rest
          exact ⟨t, .cons first front, back⟩

theorem single : Run step s [a] t ↔ step s a t := by
  constructor
  · rintro (_ | ⟨first, _ | _⟩)
    exact first
  · exact fun first => .cons first (.nil t)

theorem mono {next : σ → α → σ → Prop} (h : ∀ s a t, step s a t → next s a t)
    (run : Run step s as t) : Run next s as t := by
  induction run with
  | nil s => exact .nil s
  | cons first _ ih => exact .cons (h _ _ _ first) ih

/-- What every step keeps holds in every state reached. -/
theorem invariant (Inv : σ → Prop) (keep : ∀ s a t, Inv s → step s a t → Inv t)
    (run : Run step s as t) (start : Inv s) : Inv t := by
  induction run with
  | nil s => exact start
  | cons first _ ih => exact ih (keep _ _ _ start first)

/-- What every step keeps about the labels so far and the state holds at the end of a run. -/
theorem history (P : List α → σ → Prop) (keep : ∀ as s a t, P as s → step s a t → P (as ++ [a]) t)
    (run : Run step s as t) (start : P bs s) : P (bs ++ as) t := by
  induction run generalizing bs with
  | nil s => simpa using start
  | cons first _ ih => simpa using ih (keep bs _ _ _ start first)

/-- Two systems have the same runs when they agree on the states that an invariant describes. -/
theorem iff_of_invariant {next : σ → α → σ → Prop} (Inv : σ → Prop)
    (keep : ∀ s a t, Inv s → step s a t → Inv t)
    (agree : ∀ s a t, Inv s → (step s a t ↔ next s a t)) (start : Inv s) :
    Run step s as t ↔ Run next s as t := by
  induction as generalizing s with
  | nil =>
      constructor
      · rintro ⟨⟩
        exact .nil _
      · rintro ⟨⟩
        exact .nil _
  | cons a as ih =>
      constructor
      · rintro (_ | ⟨first, rest⟩)
        exact .cons ((agree _ _ _ start).mp first) ((ih (keep _ _ _ start first)).mp rest)
      · rintro (_ | ⟨first, rest⟩)
        have same := (agree _ _ _ start).mpr first
        exact .cons same ((ih (keep _ _ _ start same)).mpr rest)

/-- A relation between the states of two systems that every step keeps: steps with a visible
label are matched by a step of the other system, and for the others it stays where it is. -/
theorem simulation {τ β : Type*} {spec : τ → β → τ → Prop} {x : τ} (R : σ → τ → Prop)
    (visible : α → Option β)
    (hidden : ∀ s a t x, R s x → step s a t → visible a = none → R t x)
    (shown : ∀ s a t x b, R s x → step s a t → visible a = some b → ∃ y, spec x b y ∧ R t y)
    (run : Run step s as t) (start : R s x) :
    ∃ y, Run spec x (as.filterMap visible) y ∧ R t y := by
  induction run generalizing x with
  | nil s => exact ⟨x, .nil x, start⟩
  | @cons s t u a as first rest ih =>
      cases label : visible a with
      | none =>
          obtain ⟨y, matched, related⟩ := ih (hidden s a t x start first label)
          exact ⟨y, by rwa [List.filterMap_cons_none label], related⟩
      | some b =>
          obtain ⟨z, one, next⟩ := shown s a t x b start first label
          obtain ⟨y, matched, related⟩ := ih next
          exact ⟨y, by rw [List.filterMap_cons_some label]; exact .cons one matched, related⟩

end Run

section Partial

variable {next : σ → α → Option σ} {ok : σ → α → Prop}

/-- The steps of a partial function that meet a condition. -/
def Within (ok : σ → α → Prop) (next : σ → α → Option σ) (s : σ) (a : α) (t : σ) : Prop :=
  ok s a ∧ next s a = some t

/-- Follow a list of labels as long as every step is allowed and defined. -/
def simulate (ok : σ → α → Prop) [∀ s a, Decidable (ok s a)] (next : σ → α → Option σ) :
    List α → σ → Option σ
  | [], s => some s
  | a :: as, s => if ok s a then (next s a).bind (simulate ok next as) else none

/-- The labels determine where a run ends. -/
theorem Run.unique (run : Run (Within ok next) s as t) (run' : Run (Within ok next) s as u) :
    t = u := by
  induction run with
  | nil s =>
      cases run'
      rfl
  | cons first _ ih =>
      cases run' with
      | cons first' rest' =>
          have same := first.2.symm.trans first'.2
          cases same
          exact ih rest'

variable [∀ s a, Decidable (ok s a)]

theorem simulate_cons (h : simulate ok next (a :: as) s = some t) :
    ∃ u, Within ok next s a u ∧ simulate ok next as u = some t := by
  rw [simulate] at h
  split at h
  next allowed =>
    obtain ⟨u, step, rest⟩ := Option.bind_eq_some_iff.mp h
    exact ⟨u, ⟨allowed, step⟩, rest⟩
  next => cases h

/-- A simulation is a run. -/
theorem simulate_run (h : simulate ok next as s = some t) : Run (Within ok next) s as t := by
  induction as generalizing s with
  | nil =>
      cases h
      exact .nil _
  | cons a as ih =>
      obtain ⟨u, step, rest⟩ := simulate_cons h
      exact .cons step (ih rest)

end Partial

end Transition
