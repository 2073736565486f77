import Monza.GuestRequest.Message
import Monza.Lib.Transition
import Mathlib.Data.Fintype.Basic
import Mathlib.Tactic.Simps.Basic

/-!
# Cores that make guest requests

Any number of cores run `sev_typed_guest_request`, one step at a time. A request is
encrypted, sent and checked under a spinlock. The response is decrypted after the lock
has been released, with the initialization vector buffer and the cipher context that
encryption uses, too.

The host resumes a waiting core with a status and a response page of its choice. The
secure processor gets messages from the host. It answers an authentic request at most
once, under the number after that of the request.
-/

namespace Monza.GuestRequest

open Aead Transition

/-- One encryption under the key: number, authenticated data, plaintext, and the ciphertext with
its tag. -/
abbrev Sealed := Sealing Nat Bytes Bytes (Bytes × Bytes)

/-- AES-GCM under the key of the guest. -/
structure Cipher where
  encrypt : Nat → Bytes → Bytes → Bytes × Bytes
  length_tag : ∀ iv aad plaintext, (encrypt iv aad plaintext).2.length = tagLength

def Cipher.sealed (C : Cipher) (iv : Nat) (aad plaintext : Bytes) : Sealed :=
  ⟨iv, aad, plaintext, C.encrypt iv aad plaintext⟩

/-- The message that carries an encryption in the place of its payload. -/
def Cipher.fill (C : Cipher) (m : Message) (iv : Nat) (plaintext : Bytes) : Message :=
  m.fill (C.encrypt iv m.authenticationData plaintext).1
    (C.encrypt iv m.authenticationData plaintext).2 (C.length_tag _ _ _)

/-- The arguments of `sev_typed_guest_request`. -/
structure Call where
  requestPayload : PayloadType
  responsePayload : PayloadType
  payload : Bytes
  length : payload.length = requestPayload.size

/-- The request of `get_current_tsc_state_sev`. -/
def Call.tsc : Call := ⟨tscRequestPayload, tscResponsePayload, Bytes.zeros 0x80, rfl⟩

/-- The request of `generate_attestation_report_sev`; too much user data aborts. -/
def Call.report (userData : Bytes) : Result Call :=
  if h : userData.length ≤ 0x40 then
    .ok ⟨reportRequestPayload, reportResponsePayload,
      userData ++ Bytes.zeros (0x40 - userData.length) ++ Bytes.le 4 0 ++ Bytes.zeros (0x60 - 0x44),
      by simp [reportRequestPayload]; omega⟩
  else .error .kabort

inductive Direction where
  | encrypt
  | decrypt
  deriving DecidableEq, Repr

/-- The steps within `encrypt` and `decrypt`. -/
inductive Stage where
  | called
  | ivWritten
  | initialised
  deriving DecidableEq, Repr

/-- Where a core is in `sev_typed_guest_request`, with its local variables. -/
inductive Phase where
  | idle
  | acquiring (call : Call)
  | entered (call : Call)
  | encrypting (call : Call) (request : Message) (number : Nat) (stage : Stage)
  | sent (call : Call) (request : Message)
  | received (call : Call) (request response : Message)
  | checked (call : Call) (request response : Message)
  | decrypting (call : Call) (request response : Message) (stage : Stage)
  | aborted

/-- An answer of the secure processor. -/
structure Answer where
  request : Sealed
  reply : Sealed

/-- An operation of the cipher: the number it is for and the vector it was done with. -/
structure Operation where
  direction : Direction
  number : Nat
  iv : Nat
  deriving DecidableEq, Repr

/-- A call that has returned. -/
structure Return where
  call : Call
  request : Message
  payload : Bytes

/-- The variables of the module, what was encrypted under the key by guest and processor, and
what the cores have done, latest first. -/
structure State (κ : Type) where
  lock : Bool
  msgSeqNum : Nat
  iv : Nat
  ctx : Option (Direction × Nat)
  requests : List Sealed
  answers : List Answer
  operations : List Operation
  returned : List Return
  cores : κ → Phase

inductive Event (κ : Type) where
  | start (c : κ) (call : Call)
  | advance (c : κ)
  | respond (c : κ) (status : Nat) (page : Page)
  | answer (message : Message) (aad plaintext : Bytes)

namespace State

variable {κ : Type} [DecidableEq κ]

def initial : State κ := ⟨false, 1, 0, none, [], [], [], [], fun _ => .idle⟩

/-- Everything encrypted under the key. -/
def sealed (s : State κ) : List Sealed := s.requests ++ s.answers.map Answer.reply

@[simps] def moveTo (s : State κ) (c : κ) (phase : Phase) : State κ :=
  { s with cores := Function.update s.cores c phase }

/-- The checks at the start of `encrypt` and `decrypt`. -/
def sizesAgree (plaintext : Nat) (m : Message) : Bool :=
  plaintext = m.payload.length ∧ tagLength ≤ m.authenticationTag.length

/-- The sizes always agree, since both messages are built from the payload classes. -/
theorem sizesAgree_request (call : Call) (n : Nat) :
    sizesAgree call.payload.length (.request call.requestPayload n) = true := by
  simp [sizesAgree, call.length, Message.length_payload_request, Message.length_authenticationTag,
    tagLength]

theorem sizesAgree_response (P : PayloadType) (page : Page) :
    sizesAgree P.size (.response P page) = true := by
  simp [sizesAgree, Message.length_payload_response, Message.length_authenticationTag, tagLength]

/-- Encrypt with the context as it is; one that decrypts is refused by the library. -/
def encrypt (C : Cipher) (s : State κ) (c : κ) (call : Call) (request : Message) : State κ :=
  match s.ctx with
  | some (.encrypt, iv) =>
      { s with
        requests := C.sealed iv request.authenticationData call.payload :: s.requests
        operations := ⟨.encrypt, request.sequenceNumber, iv⟩ :: s.operations }.moveTo c
        (.sent call (C.fill request iv call.payload))
  | _ => s.moveTo c .aborted

/-- Decrypt with the context as it is, and return if the response is authentic. -/
def decrypt (s : State κ) (c : κ) (call : Call) (request response : Message) : State κ :=
  match s.ctx with
  | some (.decrypt, iv) =>
      let t := { s with operations := ⟨.decrypt, response.sequenceNumber, iv⟩ :: s.operations }
      match opened s.sealed iv response.authenticationData (response.payload, response.tag) with
      | some x =>
          { t with returned := ⟨call, request, x.plaintext⟩ :: s.returned }.moveTo c .idle
      | none => t.moveTo c .aborted
  | _ => s.moveTo c .aborted

/-- The next step of a core, unless it waits for a call or for the host. -/
def advance (C : Cipher) (s : State κ) (c : κ) : Option (State κ) :=
  match s.cores c with
  | .acquiring call =>
      -- the exchange stores into the lock in either case
      some <| { s with lock := true }.moveTo c (if s.lock then .acquiring call else .entered call)
  | .entered call =>
      some <| s.moveTo c <|
        .encrypting call (.request call.requestPayload s.msgSeqNum) s.msgSeqNum .called
  | .encrypting call request number .called =>
      if sizesAgree call.payload.length request then
        some <| { s with iv := number }.moveTo c (.encrypting call request number .ivWritten)
      else some (s.moveTo c .aborted)
  | .encrypting call request number .ivWritten =>
      some <| { s with ctx := some (.encrypt, s.iv) }.moveTo c
        (.encrypting call request number .initialised)
  | .encrypting call request _ .initialised => some (s.encrypt C c call request)
  | .received call request response =>
      if response.sequenceNumber = u64 (s.msgSeqNum + 1) then
        some <| { s with msgSeqNum := u64 (s.msgSeqNum + 2) }.moveTo c
          (.checked call request response)
      else some (s.moveTo c .aborted)
  | .checked call request response =>
      some <| { s with lock := false }.moveTo c (.decrypting call request response .called)
  | .decrypting call request response .called =>
      if sizesAgree call.responsePayload.size response then
        some <| { s with iv := response.sequenceNumber }.moveTo c
          (.decrypting call request response .ivWritten)
      else some (s.moveTo c .aborted)
  | .decrypting call request response .ivWritten =>
      some <| { s with ctx := some (.decrypt, s.iv) }.moveTo c
        (.decrypting call request response .initialised)
  | .decrypting call request response .initialised => some (s.decrypt c call request response)
  | .idle => none
  | .sent _ _ => none
  | .aborted => none

/-- `sev_guest_request` returns; the status has 32 bits. -/
def respond (s : State κ) (c : κ) (status : Nat) (page : Page) : Option (State κ) :=
  match s.cores c with
  | .sent call request =>
      some <| s.moveTo c <|
        if status % 2 ^ 32 = 0 then .received call request (.response call.responsePayload page)
        else .aborted
  | _ => none

/-- The processor takes a message for a request of the guest if it is one. -/
def answer (C : Cipher) (s : State κ) (message : Message) (aad plaintext : Bytes) :
    Option (State κ) :=
  match opened s.requests message.sequenceNumber message.authenticationData
      (message.payload, message.tag) with
  | some x =>
      if x.nonce ∈ s.answers.map (·.request.nonce) then none
      else some { s with answers := ⟨x, C.sealed (x.nonce + 1) aad plaintext⟩ :: s.answers }
  | none => none

def step (C : Cipher) (s : State κ) : Event κ → Option (State κ)
  | .start c call =>
      match s.cores c with
      | .idle => some (s.moveTo c (.acquiring call))
      | _ => none
  | .advance c => s.advance C c
  | .respond c status page => s.respond c status page
  | .answer message aad plaintext => s.answer C message aad plaintext

end State

end Monza.GuestRequest
