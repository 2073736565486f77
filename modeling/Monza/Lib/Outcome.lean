import Mathlib.Data.List.Induction
import Mathlib.Logic.Basic
import Mathlib.Logic.Function.Iterate

/-!
# Outcomes of fallible computations and bounded loops

`Sat r Q E` says what a computation in `Except ε` may end with: a result
meeting `Q`, or an error meeting `E`. Total statements choose an `E` that
excludes the unwanted errors; partial ones choose the trivial `E`.

`loop` is a C-style `for` loop with an iteration budget. Exhausting the budget
is an error of its own, so a bound on the real loop has to be proved and is
never assumed by the model. `scan` is its counterpart for loops that return from
within.
-/

namespace Outcome

universe u v

variable {α β : Type u} {ε : Type v}

/-- A result meets `Q`, an error meets `E`. -/
def Sat (r : Except ε α) (Q : α → Prop) (E : ε → Prop) : Prop :=
  match r with
  | .ok a => Q a
  | .error e => E e

@[simp] theorem sat_ok {a : α} {Q : α → Prop} {E : ε → Prop} :
    Sat (.ok a) Q E ↔ Q a := Iff.rfl

@[simp] theorem sat_pure {a : α} {Q : α → Prop} {E : ε → Prop} :
    Sat (pure a) Q E ↔ Q a := Iff.rfl

@[simp] theorem sat_error {e : ε} {Q : α → Prop} {E : ε → Prop} :
    Sat (.error e) Q E ↔ E e := Iff.rfl

@[simp] theorem sat_throw {e : ε} {Q : α → Prop} {E : ε → Prop} :
    Sat (throw e) Q E ↔ E e := Iff.rfl

namespace Sat

variable {r : Except ε α} {Q Q' : α → Prop} {E E' : ε → Prop}

theorem mono (h : Sat r Q E) (post : ∀ a, Q a → Q' a) (fault : ∀ e, E e → E' e) :
    Sat r Q' E' := by
  cases r with
  | ok a => exact post a h
  | error e => exact fault e h

theorem mono_post (h : Sat r Q E) (post : ∀ a, Q a → Q' a) : Sat r Q' E :=
  h.mono post (fun _ he => he)

/-- What two specifications say of a result and of an error holds together. -/
theorem both (h : Sat r Q E) (h' : Sat r Q' E') :
    Sat r (fun a => Q a ∧ Q' a) (fun e => E e ∧ E' e) := by
  cases r with
  | ok a => exact ⟨h, h'⟩
  | error e => exact ⟨h, h'⟩

theorem and (h : Sat r Q E) (h' : Sat r Q' E') : Sat r (fun a => Q a ∧ Q' a) E :=
  (h.both h').mono (fun _ post => post) fun _ fault => fault.1

/-- Without a possible error there is a result. -/
theorem returns (h : Sat r Q E) (never : ∀ e, ¬ E e) : ∃ a, r = .ok a ∧ Q a := by
  cases r with
  | ok a => exact ⟨a, rfl, h⟩
  | error e => exact absurd h (never e)

/-- Two reasons why an error cannot happen leave a result. -/
theorem exists_ok (h : Sat r Q E) (h' : Sat r Q' E') (excludes : ∀ e, E e → ¬ E' e) :
    ∃ a, r = .ok a ∧ Q a ∧ Q' a := by
  cases r with
  | ok a => exact ⟨a, rfl, h, h'⟩
  | error e => exact absurd h' (excludes e h)

/-- Sequencing: the continuation is verified from the first postcondition. -/
theorem bind {R : β → Prop} {f : α → Except ε β} (h : Sat r Q E)
    (next : ∀ a, Q a → Sat (f a) R E) : Sat (r >>= f) R E := by
  cases r with
  | ok a => exact next a h
  | error e => exact h

/-- A check before the rest. -/
theorem guard {c : Prop} [Decidable c] {e : ε} (fault : E e) (pass : ¬ c → Sat r Q E) :
    Sat (if c then .error e else r) Q E := by
  by_cases h : c
  · rw [if_pos h]
    exact fault
  · rw [if_neg h]
    exact pass h

theorem of_ok {a : α} (h : Sat r Q E) (run : r = .ok a) : Q a := by
  subst run
  exact h

/-- Without errors there is a result. -/
theorem total (h : Sat r Q (fun _ => False)) : ∃ a, r = .ok a ∧ Q a := h.returns fun _ => id

theorem eq_ok {a : α} (h : Sat r (· = a) (fun _ => False)) : r = .ok a := by
  cases r with
  | ok b => exact congrArg Except.ok h
  | error e => exact h.elim

end Sat

/-- A result is handed on. -/
theorem ok_bind {a : α} {f : α → Except ε β} : (Except.ok a >>= f) = f a := rfl

/-- Peel a successful sequence apart without unfolding either part. -/
theorem bind_eq_ok {r : Except ε α} {f : α → Except ε β} {b : β} :
    (r >>= f) = .ok b ↔ ∃ a, r = .ok a ∧ f a = .ok b := by
  cases r with
  | ok a =>
      constructor
      · intro h
        exact ⟨a, rfl, h⟩
      · rintro ⟨_, same, h⟩
        cases same
        exact h
  | error e =>
      constructor
      · intro h
        cases h
      · rintro ⟨_, same, _⟩
        cases same

theorem toOption_eq_some {r : Except ε α} {a : α} : r.toOption = some a ↔ r = .ok a := by
  cases r with
  | ok b =>
      constructor
      · rintro ⟨⟩
        rfl
      · rintro ⟨⟩
        rfl
  | error e =>
      constructor
      · intro no
        cases no
      · intro no
        cases no

/-- A step that depends on a condition, before the same rest. -/
theorem ite_bind_eq_ok {c : Prop} [Decidable c] {r q : Except ε α} {f : α → Except ε β} {b : β} :
    (if c then r >>= f else q >>= f) = .ok b ↔ ∃ a, (if c then r else q) = .ok a ∧ f a = .ok b := by
  by_cases h : c
  · simp only [if_pos h]
    exact bind_eq_ok
  · simp only [if_neg h]
    exact bind_eq_ok

/-- Results behind a check. -/
theorem guard_eq_ok {c : Prop} [Decidable c] {e : ε} {r : Except ε α} {a : α} :
    (if c then .error e else r) = .ok a ↔ ¬ c ∧ r = .ok a := by
  by_cases h : c <;> simp [h]

/-- A loop without a result, all of whose iterations have to pass. -/
theorem forM_eq_ok {f : α → Except ε PUnit} {l : List α} :
    l.forM f = .ok ⟨⟩ ↔ ∀ a ∈ l, f a = .ok ⟨⟩ := by
  induction l with
  | nil => exact iff_of_true rfl fun _ mem => absurd mem List.not_mem_nil
  | cons a l ih =>
      rw [List.forall_mem_cons, ← ih]
      refine bind_eq_ok.trans ⟨?_, fun both => ⟨⟨⟩, both⟩⟩
      rintro ⟨⟨⟩, both⟩
      exact both

theorem length_of_mapM {f : α → Except ε β} {l : List α} {r : List β} (h : l.mapM f = .ok r) :
    r.length = l.length := by
  induction l generalizing r with
  | nil =>
      cases h
      rfl
  | cons a l ih =>
      rw [List.mapM_cons] at h
      obtain ⟨b, -, h⟩ := bind_eq_ok.mp h
      obtain ⟨bs, hbs, h⟩ := bind_eq_ok.mp h
      cases h
      exact congrArg Nat.succ (ih hbs)

/-- Rule for a loop over a list: what holds of the elements met so far and the state is kept by
each iteration, which may use that the state was reached through those elements. -/
theorem foldlM_rule {σ : Type u} {f : σ → α → Except ε σ} {l : List α} {s t : σ}
    (P : List α → σ → Prop) (run : l.foldlM f s = .ok t) (start : P [] s)
    (step : ∀ pre a post u u', l = pre ++ a :: post → pre.foldlM f s = .ok u → P pre u →
      f u a = .ok u' → P (pre ++ [a]) u') : P l t := by
  suffices general : ∀ pre post u, l = pre ++ post → pre.foldlM f s = .ok u → P pre u from
    general l [] t (List.append_nil l).symm run
  intro pre
  induction pre using List.reverseRecOn with
  | nil =>
      intro post u _ run
      cases run
      exact start
  | append_singleton pre a ih =>
      intro post u split run
      rw [List.foldlM_append] at run
      obtain ⟨u', before, last⟩ := bind_eq_ok.mp run
      obtain ⟨u'', last, same⟩ := bind_eq_ok.mp last
      cases same
      rw [List.append_assoc] at split
      exact step pre a post u' u split before (ih _ u' split before) last

/-- Two loops over a list that agree on the states an invariant describes. -/
theorem foldlM_congr {σ : Type u} {f g : σ → α → Except ε σ} {l : List α} {s : σ}
    (Inv : σ → Prop) (same : ∀ s a, Inv s → f s a = g s a)
    (keep : ∀ s a t, Inv s → g s a = .ok t → Inv t) (start : Inv s) :
    l.foldlM f s = l.foldlM g s := by
  induction l generalizing s with
  | nil => rfl
  | cons a l ih =>
      rw [List.foldlM_cons, List.foldlM_cons, same s a start]
      cases run : g s a with
      | error e => rfl
      | ok t => exact ih (keep s a t start run)

section Loop

variable {σ : Type u} {stuck : ε} {cond : α → Bool} {next : α → α}
variable {body : α → σ → Except ε σ}

/-- `for (; cond a; a = next a) body`, running at most `fuel` loop heads. -/
def loop (stuck : ε) (cond : α → Bool) (next : α → α) (body : α → σ → Except ε σ) :
    Nat → α → σ → Except ε σ
  | 0, _, _ => .error stuck
  | fuel + 1, a, s =>
    if cond a then body a s >>= loop stuck cond next body fuel (next a) else .ok s

/-- A loop that runs its body `n` times goes over a list. -/
theorem loop_eq_foldlM {n fuel : Nat} {a : α} {s : σ} (more : ∀ i < n, cond (next^[i] a) = true)
    (done : cond (next^[n] a) = false) (budget : n < fuel) :
    loop stuck cond next body fuel a s =
      ((List.range n).map (next^[·] a)).foldlM (fun s a => body a s) s := by
  induction n generalizing a s fuel with
  | zero =>
      obtain ⟨fuel, rfl⟩ := Nat.exists_eq_succ_of_ne_zero (Nat.ne_of_gt budget)
      rw [loop, if_neg (Bool.not_eq_true _ ▸ done)]
      rfl
  | succ n ih =>
      obtain ⟨fuel, rfl⟩ := Nat.exists_eq_succ_of_ne_zero (Nat.ne_zero_of_lt budget)
      have first : cond a = true := more 0 (Nat.succ_pos n)
      rw [loop, if_pos first, List.range_succ_eq_map, List.map_cons, List.foldlM_cons,
        List.map_map]
      refine congrArg (body a s >>= ·) (funext fun s' => ?_)
      exact ih (fun i hi => more (i + 1) (Nat.succ_lt_succ hi)) done (Nat.lt_of_succ_lt_succ budget)

/-- A loop that counts goes over an interval. -/
theorem loop_count {σ : Type} {stuck : ε} {body : Nat → σ → Except ε σ} {start stop fuel : Nat}
    {s : σ} (budget : stop - start < fuel) :
    loop stuck (fun i => decide (i < stop)) (· + 1) body fuel start s =
      (List.range' start (stop - start)).foldlM (fun s i => body i s) s := by
  have iterate : ∀ i, (· + 1)^[i] start = start + i := by
    intro i
    induction i with
    | zero => rfl
    | succ i ih => rw [Function.iterate_succ_apply', ih, Nat.add_assoc]
  rw [loop_eq_foldlM (n := stop - start) ?_ ?_ budget, List.range'_eq_map_range]
  · simp only [iterate]
  · intro i hi
    rw [iterate]
    exact decide_eq_true (by omega)
  · rw [iterate]
    exact decide_eq_false (by omega)

/-- Total rule. The variant bounds the remaining loop heads, so a budget above
it is never exhausted; the errors left are those of the body. -/
theorem loop_total (Inv : α → σ → Prop) (variant : α → Nat) {E : ε → Prop}
    (step : ∀ a s, Inv a s → cond a = true →
      variant (next a) < variant a ∧ Sat (body a s) (Inv (next a)) E)
    {fuel : Nat} {a : α} {s : σ} (start : Inv a s) (budget : variant a < fuel) :
    Sat (loop stuck cond next body fuel a s) (fun t => ∃ b, Inv b t ∧ cond b = false) E := by
  induction fuel generalizing a s with
  | zero => omega
  | succ fuel ih =>
      rw [loop]
      by_cases hc : cond a = true
      · obtain ⟨decrease, hbody⟩ := step a s start hc
        rw [if_pos hc]
        exact hbody.bind (fun t ht => ih ht (by omega))
      · rw [if_neg hc]
        exact ⟨a, start, by simpa using hc⟩

/-- Rule for a loop that may exhaust its budget: running out is one of the errors. -/
theorem loop_sat (Inv : α → σ → Prop) {E : ε → Prop} (exhausted : E stuck)
    (step : ∀ a s, Inv a s → cond a = true → Sat (body a s) (Inv (next a)) E)
    {fuel : Nat} {a : α} {s : σ} (start : Inv a s) :
    Sat (loop stuck cond next body fuel a s) (fun t => ∃ b, Inv b t ∧ cond b = false) E := by
  induction fuel generalizing a s with
  | zero => exact exhausted
  | succ fuel ih =>
      rw [loop]
      by_cases hc : cond a = true
      · rw [if_pos hc]
        exact (step a s start hc).bind (fun t ht => ih ht)
      · rw [if_neg hc]
        exact ⟨a, start, by simpa using hc⟩

/-- Partial rule: whatever the budget, a finished loop ends in its invariant. -/
theorem loop_invariant (Inv : α → σ → Prop)
    (step : ∀ a s, Inv a s → cond a = true → Sat (body a s) (Inv (next a)) (fun _ => True))
    {fuel : Nat} {a : α} {s : σ} (start : Inv a s) :
    Sat (loop stuck cond next body fuel a s) (fun t => ∃ b, Inv b t ∧ cond b = false)
      (fun _ => True) :=
  loop_sat Inv trivial step start

end Loop

section Scan

variable {stuck : ε} {verdict : α → Option β} {next : α → α}

/-- A loop without state that returns at the first verdict, running at most `fuel` heads. -/
def scan (stuck : ε) (verdict : α → Option β) (next : α → α) : Nat → α → Except ε β
  | 0, _ => .error stuck
  | fuel + 1, a =>
    match verdict a with
    | some b => .ok b
    | none => scan stuck verdict next fuel (next a)

theorem scan_eq_ok_iff {fuel : Nat} {a : α} {b : β} :
    scan stuck verdict next fuel a = .ok b ↔ ∃ k < fuel,
      (∀ j < k, verdict (next^[j] a) = none) ∧ verdict (next^[k] a) = some b := by
  induction fuel generalizing a with
  | zero => simp [scan]
  | succ fuel ih =>
      rw [scan]
      cases hv : verdict a with
      | some c =>
          constructor
          · intro h
            cases h
            exact ⟨0, Nat.succ_pos fuel, fun j hj => absurd hj (Nat.not_lt_zero j), hv⟩
          · rintro ⟨k, -, before, last⟩
            cases k with
            | zero =>
                rw [Function.iterate_zero_apply, hv] at last
                exact congrArg Except.ok (Option.some.inj last)
            | succ k =>
                have first := before 0 (Nat.succ_pos k)
                rw [Function.iterate_zero_apply, hv] at first
                cases first
      | none =>
          refine ih.trans ⟨?_, ?_⟩
          · rintro ⟨k, hk, before, last⟩
            refine ⟨k + 1, Nat.succ_lt_succ hk, fun j hj => ?_, last⟩
            cases j with
            | zero => exact hv
            | succ j => exact before j (Nat.lt_of_succ_lt_succ hj)
          · rintro ⟨k, hk, before, last⟩
            cases k with
            | zero =>
                rw [Function.iterate_zero_apply, hv] at last
                cases last
            | succ k =>
                exact ⟨k, Nat.lt_of_succ_lt_succ hk,
                  fun j hj => before (j + 1) (Nat.succ_lt_succ hj), last⟩

end Scan

end Outcome
