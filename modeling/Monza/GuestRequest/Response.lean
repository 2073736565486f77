import Monza.GuestRequest.Nonces

/-!
# Responses under a hostile host

Calls are made one after the other, while the host resumes each with any page it likes
and passes any message to the secure processor. Whatever such a call returns is the
answer of the processor to its own request: the number checked in the clear is the
vector the response is opened with, requests have odd numbers and answers even ones.

The counter would wrap after `2 ^ 63` calls. The call that reaches its end does not
return: the number after that of its request does not fit a header, and the processor
does not answer under any other one.
-/

namespace Monza.GuestRequest

open Aead Transition

variable {κ : Type}

def Phase.isIdle : Phase → Bool
  | idle => true
  | _ => false

/-- A call starts only when no other one is under way. -/
def Sequential (s : State κ) : Event κ → Prop
  | .start _ _ => ∀ d, (s.cores d).isIdle = true
  | _ => True

instance [Fintype κ] (s : State κ) : (e : Event κ) → Decidable (Sequential s e)
  | .start _ _ => inferInstanceAs (Decidable (∀ _, _ = _))
  | .advance _ => .isTrue trivial
  | .respond _ _ _ => .isTrue trivial
  | .answer _ _ _ => .isTrue trivial

namespace State

variable (s : State κ)

/-- Every request has returned. -/
def Settled : Prop := s.lock = false ∧ s.requests.length = s.returned.length

/-- The request under way is the last one. -/
def Last (request : Message) : Prop :=
  s.requests.length = s.returned.length + 1 ∧ request.sequenceNumber + 1 = 2 * s.requests.length

/-- Where the only call under way is. -/
def Alone : Phase → Prop
  | .idle => True
  | .acquiring _ => s.Settled
  | .entered _ => s.requests.length = s.returned.length
  | .encrypting _ _ _ _ => s.requests.length = s.returned.length
  | .sent _ request => s.Last request
  | .received _ request _ => s.Last request
  | .checked _ request _ => s.Last request
  | .decrypting _ request _ _ => s.lock = false ∧ s.Last request
  | .aborted => True

structure Turns : Prop where
  alone : Exclusive (fun p : Phase => p.isIdle = false) s.cores
  holds : ∀ c, s.Alone (s.cores c)
  settled : (∀ c, (s.cores c).isIdle = true) → s.Settled
  numbered : Numbered (s.returned.map (·.request.sequenceNumber))
  bound : s.returned.length < 2 ^ 63

variable {s} {t : State κ} [DecidableEq κ] {c : κ} {p : Phase}

omit [DecidableEq κ] in
theorem Turns.initial : (State.initial : State κ).Turns :=
  ⟨(fun _ _ h => nomatch h), fun _ => trivial, fun _ => ⟨rfl, rfl⟩, trivial, Nat.two_pow_pos 63⟩

omit [DecidableEq κ] in
/-- Beside a call under way, all cores are idle. -/
theorem Turns.idle_of_ne (h : s.Turns) (active : (s.cores c).isIdle = false) {d : κ} (ne : d ≠ c) :
    s.cores d = .idle := by
  have idle := h.alone.not_of_ne active ne
  cases hd : s.cores d with
  | idle => rfl
  | _ => exact absurd (by rw [hd]; rfl) idle

/-- A step of the call under way, or the start of one. -/
theorem Turns.move (h : s.Turns) (cores : t.cores = Function.update s.cores c p)
    (active : (s.cores c).isIdle = false ∨ ∀ d, s.cores d = .idle) (holds : t.Alone p)
    (settled : p.isIdle = true → t.Settled)
    (numbered : Numbered (t.returned.map (·.request.sequenceNumber)))
    (bound : t.returned.length < 2 ^ 63) : t.Turns := by
  have others : ∀ d, d ≠ c → s.cores d = .idle := fun d ne =>
    active.elim (fun active => h.idle_of_ne active ne) fun idle => idle d
  refine ⟨?_, ?_, fun idle => settled ?_, numbered, bound⟩
  · rw [cores]
    refine h.alone.update fun _ => .inr fun d ne active => ?_
    rw [others d ne] at active
    cases active
  · rw [cores]
    refine (Function.forall_update_iff s.cores fun _ q => t.Alone q).mpr ⟨holds, fun d ne => ?_⟩
    rw [others d ne]
    trivial
  · have := idle c
    rwa [cores, Function.update_self] at this

/-- A call alone disturbs nothing. -/
theorem Turns.undisturbed (h : s.Turns) (c : κ) : Undisturbed s (.advance c) := by
  have holds := h.holds c
  refine ⟨fun starts d => ?_, fun builds => ?_⟩
  · by_cases hd : d = c
    · rw [hd]
      cases hc : s.cores c with
      | encrypting call request number stage =>
          rw [hc] at starts
          cases stage <;> trivial
      | decrypting call request response stage =>
          rw [hc] at starts
          cases stage <;> trivial
      | _ => rfl
    · have active : (s.cores c).isIdle = false := by
        cases hc : s.cores c with
        | idle => rw [hc] at starts; cases starts
        | _ => rfl
      rw [h.idle_of_ne active hd]
      rfl
  · cases hc : s.cores c with
    | entered call =>
        rw [hc] at holds
        exact holds ▸ h.bound
    | _ =>
        rw [hc] at builds
        cases builds

section Steps

variable {call : Call} {request response : Message} {number : Nat}

/-- A step of a call that does not return. -/
theorem Turns.pass (h : s.Turns) (cores : t.cores = Function.update s.cores c p)
    (returned : t.returned = s.returned) (active : (s.cores c).isIdle = false) (holds : t.Alone p)
    (under : p.isIdle = false) : t.Turns := by
  refine h.move cores (.inl active) holds (fun idle => ?_) ?_ ?_
  · cases under.symm.trans idle
  · exact returned ▸ h.numbered
  · exact returned ▸ h.bound

theorem Turns.encrypt (C : Cipher) (h : s.Turns)
    (hc : s.cores c = .encrypting call request number .initialised)
    (next : (s.encrypt C c call request).Inv) : (s.encrypt C c call request).Turns := by
  have active : (s.cores c).isIdle = false := by rw [hc]; rfl
  have alone := h.holds c
  rw [hc] at alone
  unfold State.encrypt at next ⊢
  split at next
  next iv hiv =>
    have holds := next.cores.holds c
    simp only [State.moveTo_cores, Function.update_self] at holds
    obtain ⟨-, counter, header, -⟩ := holds
    refine h.pass rfl rfl active ⟨?_, header.symm ▸ counter⟩ rfl
    exact congrArg (· + 1) alone
  next => exact h.pass rfl rfl active trivial rfl

theorem Turns.decrypt (h : s.Turns) (inv : s.Inv)
    (hc : s.cores c = .decrypting call request response .initialised) :
    (s.decrypt c call request response).Turns := by
  have active : (s.cores c).isIdle = false := by rw [hc]; rfl
  have alone := h.holds c
  rw [hc] at alone
  obtain ⟨free, last, number⟩ := alone
  unfold State.decrypt
  split
  next iv hiv =>
    simp only
    split
    next y found =>
      obtain ⟨-, -, -, -, -, room⟩ := inv.reply_of_opened hc hiv found
      have bound : s.returned.length + 1 < 2 ^ 63 := by omega
      refine h.move rfl (.inl active) trivial (fun _ => ⟨free, last⟩) ⟨?_, h.numbered⟩ bound
      rw [List.length_map]
      show request.sequenceNumber = 2 * s.returned.length + 1
      omega
    next => exact h.pass rfl rfl active trivial rfl
  next => exact h.pass rfl rfl active trivial rfl

theorem Turns.advance (C : Cipher) (h : s.Turns) (inv : s.Inv) (next : t.Inv)
    (step : s.advance C c = some t) : t.Turns := by
  have alone := h.holds c
  unfold State.advance at step
  split at step
  next call hc =>
    cases step
    rw [hc] at alone
    obtain ⟨free, length⟩ := alone
    rw [free]
    exact h.pass rfl rfl (by rw [hc]; rfl) length rfl
  next call hc =>
    cases step
    rw [hc] at alone
    exact h.pass rfl rfl (by rw [hc]; rfl) alone rfl
  next call request number hc =>
    rw [hc] at alone
    split at step <;> cases step
    · exact h.pass rfl rfl (by rw [hc]; rfl) alone rfl
    · exact h.pass rfl rfl (by rw [hc]; rfl) trivial rfl
  next call request number hc =>
    cases step
    rw [hc] at alone
    exact h.pass rfl rfl (by rw [hc]; rfl) alone rfl
  next call request number hc =>
    cases step
    exact h.encrypt C hc next
  next call request response hc =>
    rw [hc] at alone
    split at step <;> cases step
    · exact h.pass rfl rfl (by rw [hc]; rfl) alone rfl
    · exact h.pass rfl rfl (by rw [hc]; rfl) trivial rfl
  next call request response hc =>
    cases step
    rw [hc] at alone
    exact h.pass rfl rfl (by rw [hc]; rfl) ⟨rfl, alone⟩ rfl
  next call request response hc =>
    rw [hc] at alone
    split at step <;> cases step
    · exact h.pass rfl rfl (by rw [hc]; rfl) alone rfl
    · exact h.pass rfl rfl (by rw [hc]; rfl) trivial rfl
  next call request response hc =>
    cases step
    rw [hc] at alone
    exact h.pass rfl rfl (by rw [hc]; rfl) alone rfl
  next call request response hc =>
    cases step
    exact h.decrypt inv hc
  all_goals cases step

theorem Turns.respond (h : s.Turns) {status : Nat} {page : Page}
    (step : s.respond c status page = some t) : t.Turns := by
  unfold State.respond at step
  split at step
  next call request hc =>
    cases step
    have alone := h.holds c
    rw [hc] at alone
    split
    · exact h.pass rfl rfl (by rw [hc]; rfl) alone rfl
    · exact h.pass rfl rfl (by rw [hc]; rfl) trivial rfl
  next => cases step

end Steps

/-- Sequential steps are undisturbed, and keep calls in turn. -/
theorem Turns.step (C : Cipher) {e : Event κ} (inv : s.Inv) (h : s.Turns)
    (step : Within Sequential (State.step C) s e t) : t.Inv ∧ t.Turns := by
  obtain ⟨allowed, step⟩ := step
  cases e with
  | start c call =>
      refine ⟨inv.step C (e := .start c call) ⟨trivial, step⟩, ?_⟩
      have idle : ∀ d, s.cores d = .idle := fun d => by
        have := allowed d
        cases hd : s.cores d with
        | idle => rfl
        | _ => rw [hd] at this; cases this
      simp only [State.step, idle c, Option.some.injEq] at step
      subst step
      exact h.move rfl (.inr idle) (h.settled allowed) (fun h => absurd h Bool.false_ne_true)
        h.numbered h.bound
  | advance c =>
      have next := inv.step C ⟨h.undisturbed c, step⟩
      exact ⟨next, h.advance C inv next step⟩
  | respond c status page => exact ⟨inv.respond step, h.respond step⟩
  | answer message aad plaintext =>
      refine ⟨inv.answer C step, ?_⟩
      obtain ⟨x, -, -, rfl⟩ := answer_cases step
      exact ⟨h.alone, h.holds, h.settled, h.numbered, h.bound⟩

end State

/-- When calls are made one after the other, each payload returned is the plaintext of the only
answer the processor gave to the request of that call, and the counter is two further for each
call that has returned. -/
theorem sequential_responses [DecidableEq κ] (C : Cipher) {events : List (Event κ)} {s : State κ}
    (run : Run (Within Sequential (State.step C)) State.initial events s) :
    (∀ r ∈ s.returned, ∃ a ∈ s.answers, Seals a.request r.request ∧
      a.request.plaintext = r.call.payload ∧ a.reply.plaintext = r.payload ∧
      ∀ b ∈ s.answers, Seals b.request r.request → b = a) ∧
    Numbered (s.returned.map (·.request.sequenceNumber)) ∧
    ((∀ c, (s.cores c).isIdle = true) → s.msgSeqNum = 2 * s.returned.length + 1) := by
  obtain ⟨inv, turns⟩ := run.invariant (fun s => s.Inv ∧ s.Turns)
    (fun _ _ _ h step => h.2.step C h.1 step) ⟨.initial, .initial⟩
  refine ⟨fun r hr => ?_, turns.numbered, fun idle => ?_⟩
  · obtain ⟨a, ha, seals, plaintext, payload⟩ := inv.returned r hr
    refine ⟨a, ha, seals, plaintext, payload, fun b hb same => ?_⟩
    exact List.inj_on_of_nodup_map inv.log.once hb ha (same.1.trans seals.1.symm)
  · obtain ⟨free, length⟩ := turns.settled idle
    have := turns.bound
    rw [inv.free free, length]
    exact u64_of_lt (by omega)

/-- Two cores that each make a request and decrypt the response. -/
def sampleTurns : List (Event Bool) :=
  sampleExchange false 1 ++ [.advance false, .advance false, .advance false] ++
    sampleExchange true 3 ++ [.advance true, .advance true, .advance true]

theorem sequential_responses_two_calls : ∃ s : State Bool,
    Run (Within Sequential (State.step sampleCipher)) State.initial sampleTurns s ∧
    s.returned.length = 2 ∧ s.msgSeqNum = 5 ∧
    ∀ r ∈ s.returned, ∃ a ∈ s.answers, Seals a.request r.request ∧
      a.request.plaintext = r.call.payload ∧ a.reply.plaintext = r.payload ∧
      ∀ b ∈ s.answers, Seals b.request r.request → b = a := by
  have done : (simulate Sequential (State.step sampleCipher) sampleTurns State.initial).map
      (fun s => (s.returned.length, s.msgSeqNum)) = some (2, 5) := by decide +kernel
  obtain ⟨s, hs, seen⟩ := Option.map_eq_some_iff.mp done
  obtain ⟨length, counter⟩ := Prod.mk.inj seen
  have run := simulate_run hs
  exact ⟨s, run, length, counter, (sequential_responses sampleCipher run).1⟩

end Monza.GuestRequest
