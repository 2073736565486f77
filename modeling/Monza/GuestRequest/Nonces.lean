import Monza.GuestRequest.Invariant

/-!
# The numbers of guest requests

Where operations of the cipher do not overlap, each uses its own number and no number is
used twice, by the guest or by the processor. The spinlock does not ensure this: a core
that decrypts its response can write the vector buffer between the write and the read of
a core that encrypts its request.
-/

namespace Monza.GuestRequest

open Aead Transition

variable {κ : Type}

/-- In undisturbed runs, encryptions and decryptions use the number of their own message, and
nothing is encrypted under a number that was used before. -/
theorem undisturbed_nonces [DecidableEq κ] (C : Cipher) {events : List (Event κ)} {s : State κ}
    (run : Run (Within Undisturbed (State.step C)) State.initial events s) :
    (∀ o ∈ s.operations, o.iv = o.number) ∧ (s.sealed.map Sealing.nonce).Nodup := by
  have inv := run.invariant State.Inv (fun _ _ _ inv step => inv.step C step) .initial
  exact ⟨inv.operations, inv.log.nodup⟩

section Sample

/-- A cipher that hides nothing; what is authentic is known from the record. -/
def sampleCipher : Cipher := ⟨fun _ _ plaintext => (plaintext, Bytes.zeros tagLength), by simp⟩

def Page.ofMessage (m : Message) : Page where
  bytes := (m.bytes ++ Bytes.zeros hvPageSize).take hvPageSize
  length := by simp

/-- The request with a number, and a reply of zeros to it. -/
def sampleRequest (n : Nat) : Message :=
  sampleCipher.fill (.request tscRequestPayload n) n (Bytes.zeros 0x80)

def sampleReply (n : Nat) : Message :=
  sampleCipher.fill (.request tscResponsePayload (n + 1)) (n + 1) (Bytes.zeros 0x80)

/-- A core makes the request with a number, up to the release of the lock. -/
def sampleExchange (c : κ) (n : Nat) : List (Event κ) :=
  [.start c .tsc, .advance c, .advance c, .advance c, .advance c, .advance c,
    .answer (sampleRequest n) (sampleReply n).authenticationData (Bytes.zeros 0x80),
    .respond c 0 (.ofMessage (sampleReply n)), .advance c, .advance c]

/-- Two cores whose operations of the cipher do not overlap. -/
def sampleOrdered : List (Event Bool) :=
  sampleExchange false 1 ++ [.start true .tsc, .advance true, .advance true, .advance false,
    .advance false, .advance false, .advance true, .advance true, .advance true]

/-- The first core writes the vector for its response before the second one has read its own. -/
def sampleOverlap : List (Event Bool) :=
  sampleExchange false 1 ++ [.start true .tsc, .advance true, .advance true, .advance true,
    .advance false, .advance true, .advance true]

end Sample

theorem undisturbed_nonces_two_cores : ∃ s : State Bool,
    Run (Within Undisturbed (State.step sampleCipher)) State.initial sampleOrdered s ∧
      s.operations.length = 3 ∧ (∀ o ∈ s.operations, o.iv = o.number) ∧
      (s.sealed.map Sealing.nonce).Nodup := by
  have done : (simulate Undisturbed (State.step sampleCipher) sampleOrdered State.initial).map
      (·.operations.length) = some 3 := by decide +kernel
  obtain ⟨s, hs, length⟩ := Option.map_eq_some_iff.mp done
  have run := simulate_run hs
  exact ⟨s, run, length, undisturbed_nonces sampleCipher run⟩

/-- The second request is encrypted under the number of the first response, which the processor
has used. -/
theorem overlap_reuses_nonce : ∃ s : State Bool,
    Run (Within (fun _ _ => True) (State.step sampleCipher)) State.initial sampleOverlap s ∧
      ⟨.encrypt, 3, 2⟩ ∈ s.operations ∧ ¬ (s.sealed.map Sealing.nonce).Nodup := by
  have done : (simulate (fun _ _ => True) (State.step sampleCipher) sampleOverlap
      State.initial).map (fun s => (s.operations, s.sealed.map Sealing.nonce)) =
      some ([⟨.encrypt, 3, 2⟩, ⟨.encrypt, 1, 1⟩], [2, 1, 2]) := by decide +kernel
  obtain ⟨s, hs, seen⟩ := Option.map_eq_some_iff.mp done
  obtain ⟨operations, nonces⟩ := Prod.mk.inj seen
  refine ⟨s, simulate_run hs, ?_, ?_⟩
  · rw [operations]
    exact List.mem_cons_self
  · rw [nonces]
    decide

end Monza.GuestRequest
