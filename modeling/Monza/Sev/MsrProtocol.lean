import Monza.Sev.VisibleMemory

/-!
# The protocol of the MSR

Before there is a page for the communication with the host, guest and host exchange single words.
The low twelve bits of a word say what it is about, and a value of 48 bits is above them. The
class for responses accepts values of 36 bits only.
-/

namespace Monza.Sev

inductive SevGhcbInfo where
  | normal
  | registerRequest
  | registerResponse
  | pageStateRequest
  | pageStateResponse
  | featuresRequest
  | featuresResponse
  | terminationRequest
  deriving DecidableEq, Repr

def SevGhcbInfo.code : SevGhcbInfo → BitVec 64
  | normal => 0x000#64
  | registerRequest => 0x012#64
  | registerResponse => 0x013#64
  | pageStateRequest => 0x014#64
  | pageStateResponse => 0x015#64
  | featuresRequest => 0x080#64
  | featuresResponse => 0x081#64
  | terminationRequest => 0x100#64

/-- `SevGhcbMsrSimpleRequest<Info>(input).raw()`. -/
def simpleRequest (info : SevGhcbInfo) (input : BitVec 64) : BitVec 64 :=
  info.code ||| input <<< 12

/-- `SevGhcbMsrSimpleResponse<Info>(content).success()`. -/
def simpleSuccess (info : SevGhcbInfo) (content : BitVec 64) : Bool :=
  content &&& 0xfff#64 == info.code && content >>> 48 == 0#64

/-- `SevGhcbMsrSimpleResponse<Info>(content).value()`. -/
def simpleValue (content : BitVec 64) : BitVec 64 := content >>> 12

variable {info : SevGhcbInfo} {v : BitVec 64}

theorem SevGhcbInfo.code_lt (info : SevGhcbInfo) : info.code.toNat < 2 ^ 12 := by
  cases info <;> decide

theorem room_of_lt (small : v.toNat < 2 ^ 48) : v.toNat * 2 ^ 12 < 2 ^ 64 := by omega

theorem mask_request (small : v.toNat < 2 ^ 48) :
    (info.code ||| v <<< 12) &&& 0xfff#64 = info.code :=
  BitField.mask_pack (k := 12) (by decide) info.code_lt (room_of_lt small)

theorem value_request (small : v.toNat < 2 ^ 48) : (info.code ||| v <<< 12) >>> 12 = v :=
  BitField.shift_pack info.code_lt (room_of_lt small)

/-- The test of the upper bits leaves 36 for the value. -/
theorem simpleSuccess_iff (small : v.toNat < 2 ^ 48) :
    simpleSuccess info (info.code ||| v <<< 12) = true ↔ v.toNat < 2 ^ 36 := by
  rw [simpleSuccess, mask_request small, beq_self_eq_true, Bool.true_and, beq_iff_eq,
    ← BitVec.toNat_inj, BitField.toNat_shift, BitField.toNat_pack info.code_lt (room_of_lt small)]
  have code := info.code_lt
  change _ = 0 ↔ _
  omega

theorem simpleSuccess_of_ne {content : BitVec 64} (other : content &&& 0xfff#64 ≠ info.code) :
    simpleSuccess info content = false := by
  rw [simpleSuccess, beq_eq_false_iff_ne.mpr other, Bool.false_and]

/-- The frame and the state are read off the number. -/
theorem pageStateRequest_inj {frame frame' : Nat} {isShared isShared' : Bool}
    (small : frame < 2 ^ 40) (small' : frame' < 2 ^ 40)
    (same : pageStateRequest frame isShared = pageStateRequest frame' isShared') :
    frame = frame' ∧ isShared = isShared' := by
  have numbers := congrArg BitVec.toNat same
  rw [toNat_pageStateRequest small, toNat_pageStateRequest small'] at numbers
  cases isShared with
  | false =>
      cases isShared' with
      | false => exact ⟨by simpa using numbers, rfl⟩
      | true =>
          simp only [Bool.false_eq_true, if_false, if_true] at numbers
          omega
  | true =>
      cases isShared' with
      | false =>
          simp only [Bool.false_eq_true, if_false, if_true] at numbers
          omega
      | true => exact ⟨by simpa using numbers, rfl⟩

/-- Requests and responses carry what they should, but for responses with a value of more than 36
bits. -/
theorem msr_protocol_agrees_iff (info : SevGhcbInfo) (v : BitVec 64) (small : v.toNat < 2 ^ 48) :
    (simpleRequest info v &&& 0xfff#64 = info.code ∧ simpleRequest info v >>> 12 = v) ∧
    ((simpleSuccess info (info.code ||| v <<< 12) = true ∧
      simpleValue (info.code ||| v <<< 12) = v) ↔ v.toNat < 2 ^ 36) ∧
    (∀ content, content &&& 0xfff#64 ≠ info.code → simpleSuccess info content = false) ∧
    (∀ frame frame' isShared isShared', frame < 2 ^ 40 → frame' < 2 ^ 40 →
      pageStateRequest frame isShared = pageStateRequest frame' isShared' →
      frame = frame' ∧ isShared = isShared') := by
  refine ⟨⟨mask_request small, value_request small⟩, ?_, fun _ => simpleSuccess_of_ne,
    fun _ _ _ _ => pageStateRequest_inj⟩
  rw [simpleSuccess_iff small]
  exact and_iff_left (value_request small)

theorem msr_protocol_agrees_features :
    simpleSuccess .featuresResponse 0x5081#64 = true ∧ simpleValue 0x5081#64 = 5#64 :=
  (msr_protocol_agrees_iff .featuresResponse 5#64 (by decide)).2.1.mpr (by decide)

/-- A bitmap of features with bit 36 set is taken for a failure. -/
theorem msr_response_rejected :
    simpleSuccess .featuresResponse
        (SevGhcbInfo.featuresResponse.code ||| (0x1000000005#64 <<< 12)) = false ∧
      (0x1000000005#64).toNat < 2 ^ 48 := by
  decide

end Monza.Sev
