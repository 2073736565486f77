import Monza.Lib.Aead
import Monza.Lib.Bytes
import Monza.Machine

/-!
# Guest request messages

A message to or from the secure processor is a header of 0x60 bytes and a payload. The
header starts with the authentication tag and the sequence number; only its second half
is authenticated, so the number is bound to a message through the initialization vector
alone. Requests are built field by field, responses are copied from a page the host
writes.
-/

namespace Monza.GuestRequest

open Bytes

/-- `offsetof(GuestRequestMessage, payload_array)`. -/
def headerSize : Nat := 0x60

def hvPageSize : Nat := 4096

def guestRequestVmpck : UInt8 := 0

def tagLength : Nat := 16

/-- The constants of a payload class. -/
structure PayloadType where
  type : UInt8
  version : UInt8
  size : Nat
  fits : headerSize + size ≤ hvPageSize

def reportRequestPayload : PayloadType := ⟨5, 1, 0x60, by decide⟩

def reportResponsePayload : PayloadType := ⟨6, 1, 0x20 + 0x4A0, by decide⟩

def tscRequestPayload : PayloadType := ⟨17, 1, 0x80, by decide⟩

def tscResponsePayload : PayloadType := ⟨18, 1, 0x80, by decide⟩

/-- `GuestRequestMessage`, in the bytes of its packed layout. -/
structure Message where
  bytes : Bytes
  complete : headerSize ≤ bytes.length

/-- A page shared with the host. -/
structure Page where
  bytes : Bytes
  length : bytes.length = hvPageSize

namespace Message

section Accessors

variable (m : Message)

def authenticationTag : Bytes := slice 0 0x20 m.bytes

def sequenceNumber : Nat := ofLe (slice 0x20 8 m.bytes)

def authenticationData : Bytes := slice 0x30 0x30 m.bytes

def payload : Bytes := m.bytes.drop headerSize

/-- The part of the authentication tag the cipher fills and checks. -/
def tag : Bytes := slice 0 tagLength m.bytes

end Accessors

/-- The authenticated half of the header of a request. -/
def requestHeader (P : PayloadType) : Bytes :=
  [1, 1] ++ le 2 headerSize ++ [P.type, P.version] ++ le 2 P.size ++ le 4 0 ++
    [guestRequestVmpck, 0] ++ le 2 0 ++ zeros 0x20

/-- The constructor for requests. -/
def request (P : PayloadType) (msgSeqNum : Nat) : Message where
  bytes := zeros 0x20 ++ (le 8 msgSeqNum ++ (le 8 0 ++ (requestHeader P ++ zeros P.size)))
  complete := by
    simp [requestHeader, headerSize]
    omega

/-- The constructor for responses. -/
def response (P : PayloadType) (page : Page) : Message where
  bytes := page.bytes.take (headerSize + P.size)
  complete := by
    have := P.fits
    rw [List.length_take, page.length]
    omega

theorem length_kept (m : Message) :
    (slice tagLength (headerSize - tagLength) m.bytes).length = headerSize - tagLength :=
  length_slice m.complete

/-- Encryption writes the payload and the tag. -/
def fill (m : Message) (ciphertext tag : Bytes) (length : tag.length = tagLength) : Message where
  bytes := tag ++ (slice tagLength (headerSize - tagLength) m.bytes ++ ciphertext)
  complete := by
    rw [List.length_append, List.length_append, length, m.length_kept]
    unfold headerSize tagLength
    omega

theorem length_requestHeader (P : PayloadType) : (requestHeader P).length = 0x30 := by
  simp [requestHeader]

theorem sequenceNumber_request (P : PayloadType) (n : Nat) :
    (request P n).sequenceNumber = u64 n := by
  have field : slice 0x20 8 (request P n).bytes = le 8 n := by
    rw [request, slice_append_right (by simp), length_zeros, slice_append_left (by simp)]
    exact (congrArg (slice 0 · (le 8 n)) (length_le 8 n).symm).trans (slice_zero_length _)
  rw [sequenceNumber, field, ofLe_le]
  rfl

theorem sequenceNumber_lt (m : Message) : m.sequenceNumber < 2 ^ 64 := by
  have width : (slice 0x20 8 m.bytes).length = 8 :=
    length_slice (Nat.le_trans (by decide) m.complete)
  have bound := ofLe_lt (slice 0x20 8 m.bytes)
  rw [width] at bound
  exact bound

theorem length_authenticationTag (m : Message) : m.authenticationTag.length = 0x20 :=
  length_slice (Nat.le_trans (by decide) m.complete)

theorem length_payload_request (P : PayloadType) (n : Nat) :
    (request P n).payload.length = P.size := by
  simp only [payload, request, List.length_drop, List.length_append, length_zeros, length_le,
    length_requestHeader, headerSize]
  omega

theorem length_payload_response (P : PayloadType) (page : Page) :
    (response P page).payload.length = P.size := by
  have := P.fits
  simp [payload, response, page.length]
  omega

section Fill

variable (m : Message) {ciphertext tag : Bytes} (length : tag.length = tagLength)

/-- Behind the tag, the header stays as it is. -/
theorem slice_fill {offset width : Nat} (above : tagLength ≤ offset)
    (below : offset + width ≤ headerSize) :
    slice offset width (m.fill ciphertext tag length).bytes = slice offset width m.bytes := by
  have behind : offset - tagLength + width ≤ headerSize - tagLength := by omega
  have inside := behind.trans_eq m.length_kept.symm
  rw [fill, slice_append_right (by omega), length, slice_append_left inside, slice_slice behind,
    Nat.add_sub_cancel' above]

theorem sequenceNumber_fill :
    (m.fill ciphertext tag length).sequenceNumber = m.sequenceNumber :=
  congrArg ofLe (m.slice_fill length (by decide) (by decide))

theorem authenticationData_fill :
    (m.fill ciphertext tag length).authenticationData = m.authenticationData :=
  m.slice_fill length (by decide) (by decide)

theorem payload_fill : (m.fill ciphertext tag length).payload = ciphertext := by
  have header : (tag ++ slice tagLength (headerSize - tagLength) m.bytes).length = headerSize := by
    rw [List.length_append, length, m.length_kept]
    rfl
  simp only [payload, fill, ← List.append_assoc]
  exact List.drop_left' header

theorem tag_fill : (m.fill ciphertext tag length).tag = tag := by
  rw [Message.tag, fill, slice_append_left (by omega)]
  exact (congrArg (slice 0 · tag) length.symm).trans (slice_zero_length tag)

end Fill

end Message

end Monza.GuestRequest
