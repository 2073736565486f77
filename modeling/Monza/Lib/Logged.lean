import Mathlib.Data.List.Basic

/-!
# Computations with a log

`Logged ω ε α` is a computation that writes a log and may fail. What was written before a
failure stays in the log, so a statement about the log speaks about every run, also about
one that is cut off.
-/

universe u v

structure Logged (ω : Type u) (ε : Type v) (α : Type) where
  log : List ω
  result : Except ε α

namespace Logged

variable {ω : Type u} {ε : Type v} {α β γ σ : Type}

/-- Go on with the second computation, unless the first has failed. -/
protected def bind (m : Logged ω ε α) (f : α → Logged ω ε β) : Logged ω ε β :=
  match m.result with
  | .ok a => ⟨m.log ++ (f a).log, (f a).result⟩
  | .error e => ⟨m.log, .error e⟩

instance : Monad (Logged ω ε) where
  pure a := ⟨[], .ok a⟩
  bind := Logged.bind

/-- Write to the log. -/
def tell (ws : List ω) : Logged ω ε Unit := ⟨ws, .ok ()⟩

def fail (e : ε) : Logged ω ε α := ⟨[], .error e⟩

@[simp] theorem log_pure (a : α) : (pure a : Logged ω ε α).log = [] := rfl

@[simp] theorem result_pure (a : α) : (pure a : Logged ω ε α).result = .ok a := rfl

@[simp] theorem log_fail (e : ε) : (fail e : Logged ω ε α).log = [] := rfl

@[simp] theorem result_fail (e : ε) : (fail e : Logged ω ε α).result = .error e := rfl

variable {m : Logged ω ε α} {f : α → Logged ω ε β} {w : ω}

theorem bind_of_ok {a : α} (h : m.result = .ok a) :
    m >>= f = ⟨m.log ++ (f a).log, (f a).result⟩ := by
  change Logged.bind m f = _
  rw [Logged.bind, h]

theorem bind_of_error {e : ε} (h : m.result = .error e) : m >>= f = ⟨m.log, .error e⟩ := by
  change Logged.bind m f = _
  rw [Logged.bind, h]

protected theorem bind_pure (m : Logged ω ε α) : m >>= pure = m := by
  obtain ⟨log, result⟩ := m
  cases result with
  | ok a =>
      rw [bind_of_ok rfl]
      simp
  | error e => rw [bind_of_error rfl]

protected theorem bind_assoc (m : Logged ω ε α) (f : α → Logged ω ε β) (g : β → Logged ω ε γ) :
    m >>= f >>= g = m >>= fun a => f a >>= g := by
  cases first : m.result with
  | error e => rw [bind_of_error first, bind_of_error first, bind_of_error rfl]
  | ok a =>
      rw [bind_of_ok first, bind_of_ok first]
      cases second : (f a).result with
      | error e => rw [bind_of_error second, bind_of_error rfl]
      | ok b => rw [bind_of_ok second, bind_of_ok rfl, List.append_assoc]

instance : LawfulMonad (Logged ω ε) :=
  LawfulMonad.mk' _ Logged.bind_pure (fun _ _ => rfl) Logged.bind_assoc

/-- Two writes are one. -/
theorem tell_tell {ws vs : List ω} (m : Logged ω ε α) :
    (tell ws >>= fun _ => tell vs >>= fun _ => m) = (tell (ws ++ vs) >>= fun _ => m) :=
  congrArg (Logged.mk · m.result) (List.append_assoc ws vs m.log).symm

/-- The results are those of the computation without its log. -/
theorem result_bind : (m >>= f).result = m.result >>= fun a => (f a).result := by
  cases h : m.result with
  | ok a => rw [bind_of_ok h]; rfl
  | error e => rw [bind_of_error h]; rfl

theorem mem_log_bind : w ∈ (m >>= f).log ↔
    w ∈ m.log ∨ ∃ a, m.result = .ok a ∧ w ∈ (f a).log := by
  cases h : m.result with
  | ok a =>
      rw [bind_of_ok h, List.mem_append]
      simp
  | error e =>
      rw [bind_of_error h]
      simp

/-- What a loop that comes to its end has written, if an iteration writes what its element says. -/
theorem mem_log_foldlM {l : List β} {step : σ → β → Logged ω ε σ} {P : β → Prop} {s t : σ}
    (writes : ∀ s b, w ∈ (step s b).log ↔ P b) (run : (l.foldlM step s).result = .ok t) :
    w ∈ (l.foldlM step s).log ↔ ∃ b ∈ l, P b := by
  induction l generalizing s with
  | nil => simp
  | cons b l ih =>
      rw [List.foldlM_cons, result_bind] at run
      cases done : (step s b).result with
      | error e =>
          rw [done] at run
          cases run
      | ok u =>
          rw [done] at run
          rw [List.foldlM_cons, bind_of_ok done, List.mem_append, writes, ih run]
          simp

/-- A loop whose iterations write one mark each leaves the marks of the elements it came to. -/
theorem filterMap_log_foldlM {l : List β} {step : σ → β → Logged ω ε σ} {mark : ω → Option β}
    (marks : ∀ s b, (step s b).log.filterMap mark = [b]) (s : σ) :
    (l.foldlM step s).log.filterMap mark <+: l ∧
      ∀ t, (l.foldlM step s).result = .ok t → (l.foldlM step s).log.filterMap mark = l := by
  induction l generalizing s with
  | nil => exact ⟨List.prefix_rfl, fun _ _ => rfl⟩
  | cons b l ih =>
      rw [List.foldlM_cons]
      cases done : (step s b).result with
      | error e =>
          rw [bind_of_error done, marks]
          refine ⟨⟨l, rfl⟩, fun t run => ?_⟩
          cases run
      | ok u =>
          rw [bind_of_ok done, List.filterMap_append, marks]
          refine ⟨List.prefix_append_right_inj _ |>.mpr (ih u).1, fun t run => ?_⟩
          rw [(ih u).2 t run]
          rfl

/-! ## Statements about the whole log -/

/-- Everything in the log meets `P`. -/
def All (P : ω → Prop) (m : Logged ω ε α) : Prop := ∀ w ∈ m.log, P w

namespace All

variable {P : ω → Prop}

theorem pure (a : α) : (Pure.pure a : Logged ω ε α).All P := fun _ h => absurd h List.not_mem_nil

theorem fail (e : ε) : (Logged.fail e : Logged ω ε α).All P := fun _ h => absurd h List.not_mem_nil

theorem bind (h : m.All P) (rest : ∀ a, m.result = .ok a → (f a).All P) : (m >>= f).All P := by
  intro w hw
  rcases mem_log_bind.mp hw with hw | ⟨a, done, hw⟩
  · exact h w hw
  · exact rest a done w hw

theorem foldlM {l : List β} {step : σ → β → Logged ω ε σ} (h : ∀ b ∈ l, ∀ s, (step s b).All P)
    (s : σ) : (l.foldlM step s).All P := by
  induction l generalizing s with
  | nil => exact .pure s
  | cons b l ih =>
      rw [List.foldlM_cons]
      refine (h b List.mem_cons_self s).bind fun t _ => ?_
      exact ih (fun b hb => h b (List.mem_cons_of_mem _ hb)) t

end All

end Logged
