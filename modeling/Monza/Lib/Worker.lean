import Mathlib.Data.List.Basic

/-!
# Workers with room for one job

A worker is free, or has been posted a job, has accepted it, or runs it. Only a free worker
is posted to. What it has started are then the jobs posted, in their order, up to the one that
is still owed; what it has finished are those started, up to the one under way.
-/

namespace Worker

variable {J : Type*}

inductive Stage (J : Type*) where
  | free
  | posted (j : J)
  | accepted (j : J)
  | running (j : J)
  deriving DecidableEq, Repr

namespace Stage

/-- Posted and not yet started. -/
def owed : Stage J → List J
  | posted j => [j]
  | accepted j => [j]
  | _ => []

/-- Started and not yet finished. -/
def underway : Stage J → List J
  | running j => [j]
  | _ => []

end Stage

/-- A worker with the jobs posted, started and finished so far. -/
structure State (J : Type*) where
  posted : List J
  started : List J
  finished : List J
  stage : Stage J

inductive Step : State J → State J → Prop
  | post {p s f : List J} (j : J) : Step ⟨p, s, f, .free⟩ ⟨p ++ [j], s, f, .posted j⟩
  | accept {p s f : List J} {j : J} : Step ⟨p, s, f, .posted j⟩ ⟨p, s, f, .accepted j⟩
  | start {p s f : List J} {j : J} : Step ⟨p, s, f, .accepted j⟩ ⟨p, s ++ [j], f, .running j⟩
  | finish {p s f : List J} {j : J} : Step ⟨p, s, f, .running j⟩ ⟨p, s, f ++ [j], .free⟩

/-- Every job posted is started once, and every job started is finished once, in order. -/
structure Inv (w : State J) : Prop where
  posted : w.posted = w.started ++ w.stage.owed
  started : w.started = w.finished ++ w.stage.underway

namespace Inv

variable {w w' : State J}

theorem step (h : Inv w) (next : Step w w') : Inv w' := by
  obtain ⟨posted, started⟩ := h
  cases next <;> constructor <;> simp_all [Stage.owed, Stage.underway]

/-- A job is started when those before it have been finished. -/
theorem finished_of_starts (h : Inv w) (next : Step w w') (starts : w'.started ≠ w.started) :
    w.finished = w.started := by
  have started := h.started
  cases next
  case start => simpa [Stage.underway] using started.symm
  all_goals exact absurd rfl starts

theorem started_isPrefix (h : Inv w) : w.started <+: w.posted :=
  ⟨w.stage.owed, h.posted.symm⟩

theorem finished_isPrefix (h : Inv w) : w.finished <+: w.posted := by
  refine ⟨w.stage.underway ++ w.stage.owed, ?_⟩
  rw [← List.append_assoc, ← h.started, ← h.posted]

theorem finished_of_free (h : Inv w) (free : w.stage = .free) : w.finished = w.posted := by
  rw [h.posted, h.started, free]
  simp [Stage.owed, Stage.underway]

end Inv

end Worker
