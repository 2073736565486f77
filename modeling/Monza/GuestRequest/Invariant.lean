import Monza.GuestRequest.System
import Monza.Lib.Exclusion

/-!
# What holds while operations of the cipher do not overlap

The spinlock keeps requests apart, but not the decryption of a response from the
encryption of the next request: both write the vector buffer and initialize the cipher
context. Here, no core starts an operation of the cipher while another one is between its
write to the buffer and its operation, and no request is built after the counter has
wrapped.

Each core knows something about the shared variables where it is. A step of one core
keeps what the others know: those in the critical section rely on the lock and the
counter, those within an operation on the buffer and the context.
-/

namespace Monza.GuestRequest

open Aead Transition

variable {κ : Type}

namespace Phase

/-- In the critical section. -/
def inside : Phase → Bool
  | entered _ => true
  | encrypting _ _ _ _ => true
  | sent _ _ => true
  | received _ _ _ => true
  | checked _ _ _ => true
  | _ => false

/-- About to start an operation of the cipher. -/
def starts : Phase → Bool
  | encrypting _ _ _ .called => true
  | decrypting _ _ _ .called => true
  | _ => false

/-- Between the write to the vector buffer and the operation. -/
def busy : Phase → Bool
  | encrypting _ _ _ stage => stage ≠ .called
  | decrypting _ _ _ stage => stage ≠ .called
  | _ => false

/-- About to build a request. -/
def builds : Phase → Bool
  | entered _ => true
  | _ => false

end Phase

/-- Operations of the cipher do not overlap, and the counter has not wrapped when a request
is built. -/
def Undisturbed (s : State κ) : Event κ → Prop
  | .advance c =>
      ((s.cores c).starts = true → ∀ d, (s.cores d).busy = false) ∧
        ((s.cores c).builds = true → s.requests.length < 2 ^ 63)
  | _ => True

instance [Fintype κ] (s : State κ) : (e : Event κ) → Decidable (Undisturbed s e)
  | .advance _ => inferInstanceAs (Decidable (_ ∧ _))
  | .start _ _ => .isTrue trivial
  | .respond _ _ _ => .isTrue trivial
  | .answer _ _ _ => .isTrue trivial

/-- The encryption a message carries. -/
def Seals (x : Sealed) (m : Message) : Prop :=
  x.nonce = m.sequenceNumber ∧ x.aad = m.authenticationData ∧ x.output = (m.payload, m.tag)

/-- The odd numbers in turn, latest first. -/
def Numbered : List Nat → Prop
  | [] => True
  | n :: ns => n = 2 * ns.length + 1 ∧ Numbered ns

/-- What was encrypted under the key. -/
structure Log (requests : List Sealed) (answers : List Answer) : Prop where
  numbered : Numbered (requests.map Sealing.nonce)
  replies : ∀ a ∈ answers, a.request ∈ requests ∧ a.reply.nonce = a.request.nonce + 1
  once : (answers.map (·.request.nonce)).Nodup

section Log

variable {requests : List Sealed} {answers : List Answer}

theorem Numbered.of_mem {ns : List Nat} (h : Numbered ns) {n : Nat} (hn : n ∈ ns) :
    n % 2 = 1 ∧ n < 2 * ns.length := by
  induction ns with
  | nil => cases hn
  | cons m ms ih =>
      obtain ⟨hm, hms⟩ := h
      rw [List.length_cons]
      rcases List.mem_cons.mp hn with rfl | hn
      · omega
      · have := ih hms hn
        omega

theorem Numbered.nodup {ns : List Nat} (h : Numbered ns) : ns.Nodup := by
  induction ns with
  | nil => exact List.nodup_nil
  | cons m ms ih =>
      obtain ⟨hm, hms⟩ := h
      refine List.nodup_cons.mpr ⟨fun mem => ?_, ih hms⟩
      have := (hms.of_mem mem).2
      omega

theorem Log.odd (log : Log requests answers) {x : Sealed} (hx : x ∈ requests) : x.nonce % 2 = 1 :=
  (log.numbered.of_mem (List.mem_map_of_mem hx)).1

/-- The numbers of requests are odd and those of replies even. -/
theorem Log.nodup (log : Log requests answers) :
    ((requests ++ answers.map Answer.reply).map Sealing.nonce).Nodup := by
  have replies : (answers.map Answer.reply).map Sealing.nonce =
      (answers.map (·.request.nonce)).map (· + 1) := by
    rw [List.map_map, List.map_map]
    exact List.map_congr_left fun a ha => (log.replies a ha).2
  rw [List.map_append, List.nodup_append', replies]
  refine ⟨log.numbered.nodup, log.once.map fun _ _ h => Nat.succ.inj h, fun n hr ha => ?_⟩
  obtain ⟨_, hm, same⟩ := List.mem_map.mp ha
  obtain ⟨a, ha, rfl⟩ := List.mem_map.mp hm
  have odd := (log.numbered.of_mem hr).1
  have odd' := log.odd (log.replies a ha).1
  omega

/-- Only the reply to a request has the number after it. -/
theorem Log.reply_of_nonce (log : Log requests answers) {x y : Sealed} (hx : x ∈ requests)
    (bound : x.nonce < 2 ^ 64) (hy : y ∈ requests ++ answers.map Answer.reply)
    (next : y.nonce = u64 (x.nonce + 1)) :
    ∃ a ∈ answers, a.request = x ∧ a.reply = y ∧ x.nonce + 1 < 2 ^ 64 := by
  have odd := log.odd hx
  unfold u64 at next
  rcases List.mem_append.mp hy with hy | hy
  · have := log.odd hy
    omega
  · obtain ⟨a, ha, rfl⟩ := List.mem_map.mp hy
    obtain ⟨mem, reply⟩ := log.replies a ha
    -- the number of a reply is not zero, so the number after the request has not wrapped
    have same : a.request.nonce = x.nonce ∧ x.nonce + 1 < 2 ^ 64 := by omega
    exact ⟨a, ha, eq_of_nonce log.numbered.nodup mem hx same.1, rfl, same.2⟩

end Log

namespace State

variable (s : State κ)

/-- The counter names the next request. -/
def CounterReady : Prop := s.msgSeqNum = u64 (2 * s.requests.length + 1)

/-- The message of a call has been encrypted. -/
def Sent (call : Call) (request : Message) : Prop :=
  ∃ x ∈ s.requests, Seals x request ∧ x.plaintext = call.payload

/-- A response was answered with the plaintext returned. -/
def Answered (r : Return) : Prop :=
  ∃ a ∈ s.answers, Seals a.request r.request ∧ a.request.plaintext = r.call.payload ∧
    a.reply.plaintext = r.payload

/-- How far an operation for `number` has come. -/
def At (direction : Direction) (number : Nat) : Stage → Prop
  | .called => True
  | .ivWritten => s.iv = number
  | .initialised => s.ctx = some (direction, number)

/-- What a core knows where it is. -/
def Holds : Phase → Prop
  | .idle => True
  | .acquiring _ => True
  | .entered _ => s.lock = true ∧ s.CounterReady
  | .encrypting _ request number stage =>
      s.lock = true ∧ number = 2 * s.requests.length + 1 ∧ s.msgSeqNum = number ∧
        request.sequenceNumber = number ∧ s.At .encrypt number stage
  | .sent call request =>
      s.lock = true ∧ s.msgSeqNum + 1 = 2 * s.requests.length ∧
        request.sequenceNumber = s.msgSeqNum ∧ s.Sent call request
  | .received call request _ =>
      s.lock = true ∧ s.msgSeqNum + 1 = 2 * s.requests.length ∧
        request.sequenceNumber = s.msgSeqNum ∧ s.Sent call request
  | .checked call request response =>
      s.lock = true ∧ s.CounterReady ∧ s.Sent call request ∧
        response.sequenceNumber = u64 (request.sequenceNumber + 1)
  | .decrypting call request response stage =>
      s.Sent call request ∧ response.sequenceNumber = u64 (request.sequenceNumber + 1) ∧
        s.At .decrypt response.sequenceNumber stage
  | .aborted => True

structure Cores : Prop where
  holds : ∀ c, s.Holds (s.cores c)
  inside : Exclusive (fun p : Phase => p.inside = true) s.cores
  busy : Exclusive (fun p : Phase => p.busy = true) s.cores

structure Inv : Prop where
  cores : s.Cores
  free : s.lock = false → s.CounterReady
  log : Log s.requests s.answers
  operations : ∀ o ∈ s.operations, o.iv = o.number
  returned : ∀ r ∈ s.returned, s.Answered r

variable {s} {t : State κ}

section Frame

/-- Only requests are added. -/
theorem Sent.frame {call : Call} {request : Message} (h : s.Sent call request)
    (grow : s.requests ⊆ t.requests) : t.Sent call request := by
  obtain ⟨x, hx, seals⟩ := h
  exact ⟨x, grow hx, seals⟩

theorem At.frame {direction : Direction} {number : Nat} {stage : Stage}
    (h : s.At direction number stage)
    (cipher : stage ≠ .called → t.iv = s.iv ∧ t.ctx = s.ctx) : t.At direction number stage := by
  cases stage with
  | called => trivial
  | ivWritten => exact (cipher (by decide)).1.trans h
  | initialised => exact (cipher (by decide)).2.trans h

/-- A core in the critical section relies on the lock and the counter, one that uses the cipher
on the buffer and the context. -/
theorem Holds.frame {p : Phase} (h : s.Holds p) (grow : s.requests ⊆ t.requests)
    (shared : p.inside = true →
      t.lock = s.lock ∧ t.msgSeqNum = s.msgSeqNum ∧ t.requests.length = s.requests.length)
    (cipher : p.busy = true → t.iv = s.iv ∧ t.ctx = s.ctx) : t.Holds p := by
  cases p with
  | idle => trivial
  | acquiring => trivial
  | entered =>
      obtain ⟨lock, counter, length⟩ := shared rfl
      simpa only [Holds, CounterReady, lock, counter, length] using h
  | encrypting call request number stage =>
      obtain ⟨lock, counter, length⟩ := shared rfl
      obtain ⟨held, next, own, header, at_⟩ := h
      rw [Holds, lock, counter, length]
      exact ⟨held, next, own, header, at_.frame fun ne => cipher (decide_eq_true ne)⟩
  | sent =>
      obtain ⟨lock, counter, length⟩ := shared rfl
      obtain ⟨held, next, own, encrypted⟩ := h
      rw [Holds, lock, counter, length]
      exact ⟨held, next, own, encrypted.frame grow⟩
  | received =>
      obtain ⟨lock, counter, length⟩ := shared rfl
      obtain ⟨held, next, own, encrypted⟩ := h
      rw [Holds, lock, counter, length]
      exact ⟨held, next, own, encrypted.frame grow⟩
  | checked =>
      obtain ⟨lock, counter, length⟩ := shared rfl
      obtain ⟨held, ready, encrypted, number⟩ := h
      rw [Holds, CounterReady, lock, counter, length]
      exact ⟨held, ready, encrypted.frame grow, number⟩
  | decrypting call request response stage =>
      obtain ⟨encrypted, number, at_⟩ := h
      exact ⟨encrypted.frame grow, number, at_.frame fun ne => cipher (decide_eq_true ne)⟩
  | aborted => trivial

theorem lock_of_inside {p : Phase} (h : s.Holds p) (inside : p.inside = true) : s.lock = true := by
  cases p with
  | entered => exact h.1
  | encrypting => exact h.1
  | sent => exact h.1
  | received => exact h.1
  | checked => exact h.1
  | _ => cases inside

/-- Nothing a core looks at changes. -/
theorem Cores.unshared (h : s.Cores) (cores : t.cores = s.cores) (lock : t.lock = s.lock)
    (counter : t.msgSeqNum = s.msgSeqNum) (iv : t.iv = s.iv) (ctx : t.ctx = s.ctx)
    (requests : t.requests = s.requests) : t.Cores := by
  refine ⟨fun c => ?_, cores ▸ h.inside, cores ▸ h.busy⟩
  rw [cores]
  exact (h.holds c).frame (requests ▸ List.Subset.refl _)
    (fun _ => ⟨lock, counter, congrArg List.length requests⟩) fun _ => ⟨iv, ctx⟩

/-- The steps of a core `c` that keep the others going. -/
theorem Cores.move [DecidableEq κ] (h : s.Cores) (c : κ) {p : Phase}
    (cores : t.cores = Function.update s.cores c p) (holds : t.Holds p)
    (enter : p.inside = true → (s.cores c).inside = true ∨ s.lock = false)
    (start : p.busy = true → (s.cores c).busy = true ∨ ∀ d, (s.cores d).busy = false)
    (grow : s.requests ⊆ t.requests)
    (shared : ∀ d, d ≠ c → (s.cores d).inside = true →
      t.lock = s.lock ∧ t.msgSeqNum = s.msgSeqNum ∧ t.requests.length = s.requests.length)
    (cipher : ∀ d, d ≠ c → (s.cores d).busy = true → t.iv = s.iv ∧ t.ctx = s.ctx) : t.Cores := by
  refine ⟨?_, ?_, ?_⟩
  · rw [cores]
    refine (Function.forall_update_iff s.cores fun _ q => t.Holds q).mpr ⟨holds, fun d ne => ?_⟩
    exact (h.holds d).frame grow (shared d ne) (cipher d ne)
  · rw [cores]
    refine h.inside.update fun hp => (enter hp).imp_right fun free d _ hd => ?_
    have held := lock_of_inside (h.holds d) hd
    rw [free] at held
    cases held
  · rw [cores]
    refine h.busy.update fun hp => (start hp).imp_right fun none d _ hd => ?_
    rw [none d] at hd
    cases hd

end Frame

theorem Inv.initial : (State.initial : State κ).Inv where
  cores := ⟨fun _ => trivial, (fun _ _ h => nomatch h), (fun _ _ h => nomatch h)⟩
  free _ := rfl
  log := ⟨trivial, (fun _ h => nomatch h), List.nodup_nil⟩
  operations := fun _ h => nomatch h
  returned := fun _ h => nomatch h

/-- Only the records of what was done change. -/
theorem Inv.record (inv : s.Inv) {operations : List Operation} {returned : List Return}
    (numbers : ∀ o ∈ operations, o.iv = o.number) (answered : ∀ r ∈ returned, s.Answered r) :
    ({ s with operations := operations, returned := returned }).Inv :=
  ⟨inv.cores.unshared rfl rfl rfl rfl rfl rfl, inv.free, inv.log, numbers, answered⟩

theorem answer_cases {C : Cipher} {message : Message} {aad plaintext : Bytes}
    (h : s.answer C message aad plaintext = some t) :
    ∃ x ∈ s.requests, x.nonce ∉ s.answers.map (·.request.nonce) ∧
      t = { s with answers := ⟨x, C.sealed (x.nonce + 1) aad plaintext⟩ :: s.answers } := by
  unfold State.answer at h
  split at h
  next x found =>
    split at h
    next => cases h
    next fresh =>
      cases h
      exact ⟨x, (of_opened found).1, fresh, rfl⟩
  next => cases h

theorem Inv.answer (C : Cipher) (inv : s.Inv) {message : Message} {aad plaintext : Bytes}
    (h : s.answer C message aad plaintext = some t) : t.Inv := by
  obtain ⟨x, hx, fresh, rfl⟩ := answer_cases h
  refine ⟨inv.cores.unshared rfl rfl rfl rfl rfl rfl, inv.free, ⟨inv.log.numbered, ?_, ?_⟩,
    inv.operations, fun r hr => ?_⟩
  · exact List.forall_mem_cons.mpr ⟨⟨hx, rfl⟩, inv.log.replies⟩
  · exact List.nodup_cons.mpr ⟨fresh, inv.log.once⟩
  · obtain ⟨a, ha, answered⟩ := inv.returned r hr
    exact ⟨a, List.mem_cons_of_mem _ ha, answered⟩

section Steps

variable [DecidableEq κ] {c : κ} {p : Phase}
variable {call : Call} {request response : Message} {number : Nat}

/-- A step that changes nothing shared. -/
theorem Inv.moveTo (inv : s.Inv) (holds : s.Holds p)
    (enter : p.inside = true → (s.cores c).inside = true) (calm : p.busy = false) :
    (s.moveTo c p).Inv := by
  refine ⟨inv.cores.move c rfl ?_ (fun hp => .inl (enter hp)) (fun hp => ?_) (List.Subset.refl _)
    (fun _ _ _ => ⟨rfl, rfl, rfl⟩) (fun _ _ _ => ⟨rfl, rfl⟩), inv.free, inv.log, inv.operations,
    inv.returned⟩
  · exact holds.frame (List.Subset.refl _) (fun _ => ⟨rfl, rfl, rfl⟩) fun _ => ⟨rfl, rfl⟩
  · rw [calm] at hp
    cases hp

theorem Inv.abort (inv : s.Inv) : (s.moveTo c .aborted).Inv :=
  inv.moveTo trivial (fun h => nomatch h) rfl

theorem Inv.acquire (inv : s.Inv) :
    ({ s with lock := true }.moveTo c
      (if s.lock then .acquiring call else .entered call)).Inv := by
  cases held : s.lock with
  | true =>
      rw [if_pos rfl, ← held]
      exact inv.moveTo trivial (fun h => nomatch h) rfl
  | false =>
      rw [if_neg (by decide)]
      refine ⟨inv.cores.move c rfl ⟨rfl, inv.free held⟩ (fun _ => .inr held) (fun h => nomatch h)
        (List.Subset.refl _) (fun d _ hd => ?_) (fun _ _ _ => ⟨rfl, rfl⟩), (fun h => nomatch h),
        inv.log, inv.operations, inv.returned⟩
      exact ⟨(lock_of_inside (inv.cores.holds d) hd).symm, rfl, rfl⟩

theorem Inv.build (inv : s.Inv) (hc : s.cores c = .entered call)
    (bound : s.requests.length < 2 ^ 63) :
    (s.moveTo c (.encrypting call (.request call.requestPayload s.msgSeqNum) s.msgSeqNum
      .called)).Inv := by
  have holds := inv.cores.holds c
  rw [hc] at holds
  obtain ⟨held, ready⟩ := holds
  have next : s.msgSeqNum = 2 * s.requests.length + 1 := ready.trans (u64_of_lt (by omega))
  refine inv.moveTo ⟨held, next, rfl, ?_, trivial⟩ (fun _ => by rw [hc]; rfl) rfl
  rw [Message.sequenceNumber_request, u64_of_lt (by omega)]

/-- A core writes to the buffer while no other core uses it. -/
theorem Inv.writeIv (inv : s.Inv) (calm : ∀ d, (s.cores d).busy = false)
    (enter : p.inside = true → (s.cores c).inside = true)
    (holds : ({ s with iv := number }).Holds p) :
    ({ s with iv := number }.moveTo c p).Inv := by
  refine ⟨inv.cores.move c rfl ?_ (fun hp => .inl (enter hp)) (fun _ => .inr calm)
    (List.Subset.refl _) (fun _ _ _ => ⟨rfl, rfl, rfl⟩) (fun d _ hd => ?_), inv.free, inv.log,
    inv.operations, inv.returned⟩
  · exact holds.frame (List.Subset.refl _) (fun _ => ⟨rfl, rfl, rfl⟩) fun _ => ⟨rfl, rfl⟩
  · rw [calm d] at hd
    cases hd

/-- A core that uses the buffer initializes the context. -/
theorem Inv.initialise (inv : s.Inv) {ctx : Option (Direction × Nat)}
    (busy : (s.cores c).busy = true) (enter : p.inside = true → (s.cores c).inside = true)
    (holds : ({ s with ctx := ctx }).Holds p) : ({ s with ctx := ctx }.moveTo c p).Inv := by
  refine ⟨inv.cores.move c rfl ?_ (fun hp => .inl (enter hp)) (fun _ => .inl busy)
    (List.Subset.refl _) (fun _ _ _ => ⟨rfl, rfl, rfl⟩) (fun d ne hd => ?_), inv.free, inv.log,
    inv.operations, inv.returned⟩
  · exact holds.frame (List.Subset.refl _) (fun _ => ⟨rfl, rfl, rfl⟩) fun _ => ⟨rfl, rfl⟩
  · exact absurd hd (inv.cores.busy.not_of_ne busy ne)

theorem Inv.check (inv : s.Inv) (hc : s.cores c = .received call request response)
    (expected : response.sequenceNumber = u64 (s.msgSeqNum + 1)) :
    ({ s with msgSeqNum := u64 (s.msgSeqNum + 2) }.moveTo c
      (.checked call request response)).Inv := by
  have holds := inv.cores.holds c
  have inside : (s.cores c).inside = true := by rw [hc]; rfl
  rw [hc] at holds
  obtain ⟨held, next, own, encrypted⟩ := holds
  have ready : u64 (s.msgSeqNum + 2) = u64 (2 * s.requests.length + 1) := by
    rw [← next]
  refine ⟨inv.cores.move c rfl ⟨held, ready, encrypted, own ▸ expected⟩ (fun _ => .inl inside)
    (fun h => nomatch h) (List.Subset.refl _) (fun d ne hd => ?_) (fun _ _ _ => ⟨rfl, rfl⟩),
    fun _ => ready, inv.log, inv.operations, inv.returned⟩
  exact absurd hd (inv.cores.inside.not_of_ne inside ne)

theorem Inv.release (inv : s.Inv) (hc : s.cores c = .checked call request response) :
    ({ s with lock := false }.moveTo c (.decrypting call request response .called)).Inv := by
  have holds := inv.cores.holds c
  have inside : (s.cores c).inside = true := by rw [hc]; rfl
  rw [hc] at holds
  obtain ⟨held, ready, encrypted, expected⟩ := holds
  refine ⟨inv.cores.move c rfl ⟨encrypted, expected, trivial⟩ (fun h => nomatch h)
    (fun h => nomatch h) (List.Subset.refl _) (fun d ne hd => ?_) (fun _ _ _ => ⟨rfl, rfl⟩),
    fun _ => ready, inv.log, inv.operations, inv.returned⟩
  exact absurd hd (inv.cores.inside.not_of_ne inside ne)

theorem seals_fill (C : Cipher) (m : Message) (plaintext : Bytes) :
    Seals (C.sealed m.sequenceNumber m.authenticationData plaintext)
      (C.fill m m.sequenceNumber plaintext) := by
  refine ⟨?_, ?_, ?_⟩
  · exact (m.sequenceNumber_fill _).symm
  · exact (m.authenticationData_fill _).symm
  · exact Prod.ext (m.payload_fill _).symm (m.tag_fill _).symm

theorem Inv.encrypt (C : Cipher) (inv : s.Inv)
    (hc : s.cores c = .encrypting call request number .initialised) :
    (s.encrypt C c call request).Inv := by
  have holds := inv.cores.holds c
  have inside : (s.cores c).inside = true := by rw [hc]; rfl
  have busy : (s.cores c).busy = true := by rw [hc]; rfl
  rw [hc] at holds
  obtain ⟨held, next, own, header, ctx⟩ := holds
  have ctx : s.ctx = some (.encrypt, request.sequenceNumber) := ctx.trans (by rw [header])
  simp only [State.encrypt, ctx]
  refine ⟨inv.cores.move c rfl ⟨held, ?_, ?_, ?_⟩ (fun _ => .inl inside) (fun h => nomatch h)
    (List.subset_cons_self _ _) (fun d ne hd => ?_) (fun d ne hd => ?_), fun free => ?_,
    ⟨⟨?_, inv.log.numbered⟩, fun a ha => ?_, inv.log.once⟩, ?_, inv.returned⟩
  · simp only [State.moveTo_msgSeqNum, State.moveTo_requests, List.length_cons]
    omega
  · exact (request.sequenceNumber_fill _).trans (header.trans own.symm)
  · exact ⟨_, List.mem_cons_self, seals_fill C request call.payload, rfl⟩
  · exact absurd hd (inv.cores.inside.not_of_ne inside ne)
  · exact absurd hd (inv.cores.busy.not_of_ne busy ne)
  · cases held.symm.trans free
  · rw [List.length_map]
    exact header.trans next
  · exact ⟨List.mem_cons_of_mem _ (inv.log.replies a ha).1, (inv.log.replies a ha).2⟩
  · exact List.forall_mem_cons.mpr ⟨rfl, inv.operations⟩

omit [DecidableEq κ] in
/-- A response that opens is the answer to the request of the call. -/
theorem Inv.reply_of_opened (inv : s.Inv)
    (hc : s.cores c = .decrypting call request response .initialised) {iv : Nat} {y : Sealed}
    (hiv : s.ctx = some (.decrypt, iv))
    (found : opened s.sealed iv response.authenticationData (response.payload, response.tag) =
      some y) :
    ∃ a ∈ s.answers, Seals a.request request ∧ a.request.plaintext = call.payload ∧ a.reply = y ∧
      request.sequenceNumber + 1 < 2 ^ 64 := by
  have holds := inv.cores.holds c
  rw [hc] at holds
  obtain ⟨⟨x, hx, seals, plaintext⟩, expected, ctx⟩ := holds
  obtain rfl : response.sequenceNumber = iv :=
    congrArg Prod.snd (Option.some.inj (ctx.symm.trans hiv))
  obtain ⟨hy, nonce, -, -⟩ := of_opened found
  have bound : x.nonce < 2 ^ 64 := seals.1.trans_lt request.sequenceNumber_lt
  obtain ⟨a, ha, rfl, rfl, room⟩ :=
    inv.log.reply_of_nonce hx bound hy (by rw [nonce, expected, seals.1])
  exact ⟨a, ha, seals, plaintext, rfl, seals.1 ▸ room⟩

theorem Inv.decrypt (inv : s.Inv)
    (hc : s.cores c = .decrypting call request response .initialised) :
    (s.decrypt c call request response).Inv := by
  have holds := inv.cores.holds c
  rw [hc] at holds
  obtain ⟨-, -, ctx⟩ := holds
  unfold State.decrypt
  split
  next iv hiv =>
    have own : iv = response.sequenceNumber :=
      congrArg Prod.snd (Option.some.inj (hiv.symm.trans ctx))
    have numbers : ∀ o ∈ (⟨.decrypt, response.sequenceNumber, iv⟩ :: s.operations : List Operation),
        o.iv = o.number := List.forall_mem_cons.mpr ⟨own, inv.operations⟩
    simp only
    split
    next y found =>
      obtain ⟨a, ha, seals, plaintext, rfl, -⟩ := inv.reply_of_opened hc hiv found
      have answered : s.Answered ⟨call, request, a.reply.plaintext⟩ :=
        ⟨a, ha, seals, plaintext, rfl⟩
      exact (inv.record numbers (List.forall_mem_cons.mpr ⟨answered, inv.returned⟩)).moveTo
        trivial (fun h => nomatch h) rfl
    next => exact (inv.record numbers inv.returned).abort
  next => exact inv.abort

theorem Inv.respond (inv : s.Inv) {status : Nat} {page : Page}
    (h : s.respond c status page = some t) : t.Inv := by
  unfold State.respond at h
  split at h
  next call request hc =>
    cases h
    have holds := inv.cores.holds c
    have inside : (s.cores c).inside = true := by rw [hc]; rfl
    rw [hc] at holds
    split
    · exact inv.moveTo holds (fun _ => inside) rfl
    · exact inv.abort
  next => cases h

theorem Inv.advance (C : Cipher) (inv : s.Inv) (allowed : Undisturbed s (.advance c))
    (h : s.advance C c = some t) : t.Inv := by
  obtain ⟨calm, bound⟩ := allowed
  have holds := inv.cores.holds c
  unfold State.advance at h
  split at h
  next call hc =>
    cases h
    exact inv.acquire
  next call hc =>
    cases h
    exact inv.build hc (bound (by rw [hc]; rfl))
  next call request number hc =>
    rw [hc] at holds
    split at h
    · cases h
      exact inv.writeIv (calm (by rw [hc]; rfl)) (fun _ => by rw [hc]; rfl)
        ⟨holds.1, holds.2.1, holds.2.2.1, holds.2.2.2.1, rfl⟩
    · cases h
      exact inv.abort
  next call request number hc =>
    cases h
    rw [hc] at holds
    obtain ⟨held, next, own, header, iv⟩ := holds
    exact inv.initialise (by rw [hc]; rfl) (fun _ => by rw [hc]; rfl)
      ⟨held, next, own, header, congrArg (fun n => some (Direction.encrypt, n)) iv⟩
  next call request number hc =>
    cases h
    exact inv.encrypt C hc
  next call request response hc =>
    split at h
    · cases h
      exact inv.check hc ‹_›
    · cases h
      exact inv.abort
  next call request response hc =>
    cases h
    exact inv.release hc
  next call request response hc =>
    rw [hc] at holds
    split at h
    · cases h
      exact inv.writeIv (calm (by rw [hc]; rfl)) (fun h => nomatch h) ⟨holds.1, holds.2.1, rfl⟩
    · cases h
      exact inv.abort
  next call request response hc =>
    cases h
    rw [hc] at holds
    obtain ⟨encrypted, expected, iv⟩ := holds
    exact inv.initialise (by rw [hc]; rfl) (fun h => nomatch h)
      ⟨encrypted, expected, congrArg (fun n => some (Direction.decrypt, n)) iv⟩
  next call request response hc =>
    cases h
    exact inv.decrypt hc
  all_goals cases h

theorem Inv.step (C : Cipher) {e : Event κ} (inv : s.Inv)
    (h : Within Undisturbed (State.step C) s e t) : t.Inv := by
  obtain ⟨allowed, h⟩ := h
  cases e with
  | start c call =>
      simp only [State.step] at h
      split at h
      · cases h
        exact inv.moveTo trivial (fun h => nomatch h) rfl
      · cases h
  | advance c => exact inv.advance C allowed h
  | respond c status page => exact inv.respond h
  | answer message aad plaintext => exact inv.answer C h

end Steps

end State

end Monza.GuestRequest
