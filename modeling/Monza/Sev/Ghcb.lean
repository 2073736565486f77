import Mathlib.Data.Fintype.Pi
import Monza.Lib.BitField
import Monza.Lib.Logged

/-!
# Requests by the shared page

A guest talks to the host by a page that both can read, the GHCB: it stores the arguments into
fields named after the registers, marks these fields in a bitmap and leaves to the host by
`vmgexit`. The log of a request has the stores into the page and the page as the host finds it.

The bitmap starts as a local variable that nothing initialises, so it also has the bits that
happened to be on the stack. This memory is an argument here.
-/

namespace Monza.Sev

inductive SevFormat where
  | base
  | hypercall
  deriving DecidableEq, Repr

/-- The fields of `SevGhcbBase` with eight bytes. -/
inductive GhcbField where
  | dr7 | rax | rcx | rdx | rbx | rbp | rsi | rdi
  | r8 | r9 | r10 | r11 | r12 | r13 | r14 | r15
  | exitCode | exitInfo1 | exitInfo2 | scratch | xfem
  deriving DecidableEq, Repr

namespace GhcbField

/-- The members of `SevGhcbBase` up to `valid_bitmap` with their sizes; the structure is packed. -/
def members : List (Option GhcbField × Nat) :=
  [(none, 0xCB), (none, 1), (none, 0x94), (some dr7, 8), (none, 0x90), (some rax, 8),
    (none, 0x108), (some rcx, 8), (some rdx, 8), (some rbx, 8), (none, 8), (some rbp, 8),
    (some rsi, 8), (some rdi, 8), (some r8, 8), (some r9, 8), (some r10, 8), (some r11, 8),
    (some r12, 8), (some r13, 8), (some r14, 8), (some r15, 8), (none, 0x10),
    (some exitCode, 8), (some exitInfo1, 8), (some exitInfo2, 8), (some scratch, 8),
    (none, 0x38), (some xfem, 8)]

/-- `offsetof(SevGhcbBase, field)`. -/
def offset (field : GhcbField) : Nat :=
  ((members.takeWhile (·.1 ≠ some field)).map (·.2)).sum

theorem offset_lt (field : GhcbField) : field.offset / 8 < 8 * 16 := by
  cases field <;> decide

/-- The place of a field in the bitmap. -/
def place (field : GhcbField) : Fin (8 * 16) := ⟨field.offset / 8, field.offset_lt⟩

end GhcbField

/-- `SevGhcbValidBitmapData`. -/
abbrev ValidBitmap : Type := Fin 16 → BitVec 8

/-- `SEV_GHCB_SET_VALID_BITMAP`. -/
def setValidBitmap (dst : ValidBitmap) (field : GhcbField) : ValidBitmap :=
  BitField.setBit dst field.place

/-- `SevGhcbValidBitmapData::initial_guest`, which does not initialise its `result`. -/
def initialGuest (result : ValidBitmap) : ValidBitmap :=
  setValidBitmap (setValidBitmap (setValidBitmap result .exitCode) .exitInfo1) .exitInfo2

structure SevGhcb where
  fields : GhcbField → BitVec 64
  validBitmap : ValidBitmap
  format : SevFormat

inductive GhcbEvent where
  | store (field : GhcbField) (value : BitVec 64)
  | vmgexit (page : SevGhcb)

inductive GhcbFault where
  | kabort
  deriving DecidableEq, Repr

abbrev GhcbRun : Type → Type := Logged GhcbEvent GhcbFault

def SevGhcb.store (ghcb : SevGhcb) (field : GhcbField) (value : BitVec 64) : GhcbRun SevGhcb :=
  ⟨[.store field value], .ok { ghcb with fields := Function.update ghcb.fields field value }⟩

/-- The host may change the whole page. -/
def SevGhcb.vmgexit (host : SevGhcb → SevGhcb) (ghcb : SevGhcb) : GhcbRun SevGhcb :=
  ⟨[.vmgexit ghcb], .ok (host ghcb)⟩

/-- The common shape of the requests. -/
def ghcbRequest (stores : List (GhcbField × BitVec 64)) (validBitmap : ValidBitmap)
    (failed : SevGhcb → Bool) (host : SevGhcb → SevGhcb) (ghcb : SevGhcb) : GhcbRun SevGhcb := do
  let ghcb ← stores.foldlM (fun ghcb s => ghcb.store s.1 s.2) { ghcb with format := .base }
  let ghcb ← SevGhcb.vmgexit host { ghcb with validBitmap := validBitmap }
  if failed ghcb then Logged.fail .kabort else pure ghcb

/-- `SevExitCode`, as far as the requests use it. -/
inductive SevExitCode where
  | ioio
  | msr
  | guestRequest
  deriving DecidableEq, Repr

def SevExitCode.code : SevExitCode → BitVec 64
  | ioio => 0x7b#64
  | msr => 0x7c#64
  | guestRequest => 0x80000011#64

def com1 : BitVec 64 := 0x3F8#64

section Requests

variable (result : ValidBitmap) (host : SevGhcb → SevGhcb) (ghcb : SevGhcb)

def writeMsrVirtSev (msr : BitVec 32) (value : BitVec 64) : GhcbRun SevGhcb :=
  ghcbRequest
    [(.rcx, msr.setWidth 64), (.rax, value &&& 0xFFFFFFFF#64),
      (.rdx, value >>> 32 &&& 0xFFFFFFFF#64), (.exitCode, SevExitCode.msr.code),
      (.exitInfo1, 1#64), (.exitInfo2, 0#64)]
    (setValidBitmap (setValidBitmap (setValidBitmap (initialGuest result) .rcx) .rax) .rdx)
    (fun ghcb => ghcb.fields .exitInfo1 != 0#64) host ghcb

def uartputcSev (c : BitVec 8) : GhcbRun SevGhcb :=
  ghcbRequest
    [(.rax, c.setWidth 64), (.exitCode, SevExitCode.ioio.code),
      (.exitInfo1, 1#64 <<< 4 ||| com1 <<< 16), (.exitInfo2, 0#64)]
    (setValidBitmap (initialGuest result) .rax)
    (fun ghcb => ghcb.fields .exitInfo1 != 0#64) host ghcb

/-- The status of a guest request has 32 bits. -/
def sevGuestRequest (requestPage responsePage : BitVec 64) : GhcbRun SevGhcb :=
  ghcbRequest
    [(.exitCode, SevExitCode.guestRequest.code), (.exitInfo1, requestPage),
      (.exitInfo2, responsePage)]
    (initialGuest result)
    (fun ghcb => (ghcb.fields .exitInfo2).setWidth 32 != 0#32) host ghcb

end Requests

inductive GhcbOperation where
  | writeMsrVirtSev (msr : BitVec 32) (value : BitVec 64)
  | uartputcSev (c : BitVec 8)
  | sevGuestRequest (requestPage responsePage : BitVec 64)

def GhcbOperation.run (result : ValidBitmap) (host : SevGhcb → SevGhcb) (ghcb : SevGhcb) :
    GhcbOperation → GhcbRun SevGhcb
  | writeMsrVirtSev msr value => Sev.writeMsrVirtSev result host ghcb msr value
  | uartputcSev c => Sev.uartputcSev result host ghcb c
  | sevGuestRequest requestPage responsePage =>
      Sev.sevGuestRequest result host ghcb requestPage responsePage

/-- The fields that an operation stores. -/
def GhcbOperation.fields : GhcbOperation → List GhcbField
  | writeMsrVirtSev _ _ => [.rcx, .rax, .rdx, .exitCode, .exitInfo1, .exitInfo2]
  | uartputcSev _ => [.rax, .exitCode, .exitInfo1, .exitInfo2]
  | sevGuestRequest _ _ => [.exitCode, .exitInfo1, .exitInfo2]

/-- The places of these fields in the bitmap. -/
def GhcbOperation.places (op : GhcbOperation) : List (Fin (8 * 16)) :=
  op.fields.map GhcbField.place

/-- The page that an event shows to the host. -/
def GhcbEvent.page? : GhcbEvent → Option SevGhcb
  | store _ _ => none
  | vmgexit page => some page

/-- The bitmaps that the host finds. -/
def publishedBitmaps (log : List GhcbEvent) : List ValidBitmap :=
  (log.filterMap GhcbEvent.page?).map SevGhcb.validBitmap

/-- A field at this place of the bitmap has been stored. -/
def Stored (log : List GhcbEvent) (i : Fin (8 * 16)) : Prop :=
  ∃ field value, GhcbEvent.store field value ∈ log ∧ field.place = i

section Log

variable {stores : List (GhcbField × BitVec 64)} {validBitmap : ValidBitmap}
  {failed : SevGhcb → Bool} {host : SevGhcb → SevGhcb} {ghcb : SevGhcb} {i : Fin (8 * 16)}

def storeEvents (stores : List (GhcbField × BitVec 64)) : List GhcbEvent :=
  stores.map fun s => .store s.1 s.2

/-- The fields after some stores. -/
def storeAll (stores : List (GhcbField × BitVec 64)) (fields : GhcbField → BitVec 64) :
    GhcbField → BitVec 64 :=
  stores.foldl (fun fields s => Function.update fields s.1 s.2) fields

theorem foldlM_store : ∀ (stores : List (GhcbField × BitVec 64)) (ghcb : SevGhcb),
    stores.foldlM (fun ghcb s => ghcb.store s.1 s.2) ghcb =
      (⟨storeEvents stores, .ok { ghcb with fields := storeAll stores ghcb.fields }⟩ :
        GhcbRun SevGhcb)
  | [], _ => rfl
  | s :: stores, ghcb => by
      rw [List.foldlM_cons, SevGhcb.store, Logged.bind_of_ok rfl, foldlM_store stores]
      rfl

/-- A request writes its stores and shows the page once. -/
theorem log_ghcbRequest : (ghcbRequest stores validBitmap failed host ghcb).log =
    storeEvents stores ++ [.vmgexit ⟨storeAll stores ghcb.fields, validBitmap, .base⟩] := by
  rw [ghcbRequest, foldlM_store, Logged.bind_of_ok rfl, SevGhcb.vmgexit, Logged.bind_of_ok rfl]
  split <;> rfl

theorem publishedBitmaps_ghcbRequest :
    publishedBitmaps (ghcbRequest stores validBitmap failed host ghcb).log = [validBitmap] := by
  have silent : (storeEvents stores).filterMap GhcbEvent.page? = [] := by
    rw [storeEvents, List.filterMap_map]
    exact List.filterMap_eq_nil_iff.mpr fun _ _ => rfl
  rw [log_ghcbRequest, publishedBitmaps, List.filterMap_append, silent]
  rfl

theorem stored_ghcbRequest :
    Stored (ghcbRequest stores validBitmap failed host ghcb).log i ↔
      i ∈ (stores.map Prod.fst).map GhcbField.place := by
  rw [log_ghcbRequest]
  constructor
  · rintro ⟨field, value, mem, rfl⟩
    simp only [storeEvents, List.mem_append, List.mem_map, List.mem_singleton, reduceCtorEq,
      or_false] at mem
    obtain ⟨s, mem, same⟩ := mem
    cases same
    exact List.mem_map_of_mem (List.mem_map_of_mem mem)
  · intro mem
    obtain ⟨field, mem, place⟩ := List.mem_map.mp mem
    obtain ⟨s, given, rfl⟩ := List.mem_map.mp mem
    exact ⟨s.1, s.2, List.mem_append_left _ (List.mem_map_of_mem given), place⟩

end Log

section Operations

/-- Every operation is a request that stores its fields and marks the same ones, starting with
whatever is in the memory of `result`. -/
theorem GhcbOperation.run_eq (op : GhcbOperation) :
    ∃ (stores : List (GhcbField × BitVec 64)) (marked : List GhcbField) (failed : SevGhcb → Bool),
      stores.map Prod.fst = op.fields ∧ (∀ field, field ∈ marked ↔ field ∈ op.fields) ∧
      ∀ result host ghcb,
        op.run result host ghcb =
          ghcbRequest stores (marked.foldl setValidBitmap result) failed host ghcb := by
  cases op with
  | writeMsrVirtSev msr value =>
      refine ⟨_, [.exitCode, .exitInfo1, .exitInfo2, .rcx, .rax, .rdx], _, rfl, ?_,
        fun _ _ _ => rfl⟩
      intro field
      cases field <;> simp [GhcbOperation.fields]
  | uartputcSev c =>
      refine ⟨_, [.exitCode, .exitInfo1, .exitInfo2, .rax], _, rfl, ?_, fun _ _ _ => rfl⟩
      intro field
      cases field <;> simp [GhcbOperation.fields]
  | sevGuestRequest requestPage responsePage =>
      exact ⟨_, [.exitCode, .exitInfo1, .exitInfo2], _, rfl, fun _ => Iff.rfl, fun _ _ _ => rfl⟩

/-- What is stored does not depend on the memory of `result`. -/
theorem GhcbOperation.stored_iff (op : GhcbOperation) {result : ValidBitmap}
    {host : SevGhcb → SevGhcb} {ghcb : SevGhcb} {i : Fin (8 * 16)} :
    Stored (op.run result host ghcb).log i ↔ i ∈ op.places := by
  obtain ⟨stores, marked, failed, stored, _, run⟩ := op.run_eq
  rw [run, stored_ghcbRequest, stored, GhcbOperation.places]

/-- What the host finds in the bitmap. -/
theorem GhcbOperation.published (op : GhcbOperation) (result : ValidBitmap)
    (host : SevGhcb → SevGhcb) (ghcb : SevGhcb) :
    ∃ validBitmap, publishedBitmaps (op.run result host ghcb).log = [validBitmap] ∧
      ∀ i, BitField.bit validBitmap i = true ↔ BitField.bit result i = true ∨ i ∈ op.places := by
  obtain ⟨stores, marked, failed, _, same, run⟩ := op.run_eq
  refine ⟨marked.foldl setValidBitmap result, ?_, ?_⟩
  · rw [run, publishedBitmaps_ghcbRequest]
  · intro i
    simp only [GhcbOperation.places, List.mem_map, ← same]
    exact BitField.bit_foldl_setBit GhcbField.place i marked result

/-- The bitmap is that of the stored fields if and only if the memory of `result` has no bits but
theirs, and two runs publish the same bitmap if and only if this memory agrees on all other
bits. -/
theorem valid_bitmap_exact_iff (op : GhcbOperation) (result result' : ValidBitmap)
    (host : SevGhcb → SevGhcb) (ghcb : SevGhcb) :
    ∃ validBitmap validBitmap',
      publishedBitmaps (op.run result host ghcb).log = [validBitmap] ∧
      publishedBitmaps (op.run result' host ghcb).log = [validBitmap'] ∧
      (∀ i, Stored (op.run result host ghcb).log i ↔ i ∈ op.places) ∧
      ((∀ i, BitField.bit validBitmap i = true ↔ Stored (op.run result host ghcb).log i) ↔
        ∀ i, BitField.bit result i = true → i ∈ op.places) ∧
      (validBitmap = validBitmap' ↔
        ∀ i, i ∉ op.places → BitField.bit result i = BitField.bit result' i) := by
  obtain ⟨validBitmap, shown, bits⟩ := op.published result host ghcb
  obtain ⟨validBitmap', shown', bits'⟩ := op.published result' host ghcb
  refine ⟨validBitmap, validBitmap', shown, shown', fun i => op.stored_iff, ?_, ?_, ?_⟩
  · simp only [bits, op.stored_iff, or_iff_right_iff_imp]
  · rintro rfl i other
    have here := (bits i).symm.trans (bits' i)
    simpa only [other, or_false, ← Bool.eq_iff_iff] using here
  · intro agree
    apply BitField.bitmap_ext
    intro i
    rw [Bool.eq_iff_iff, bits, bits']
    by_cases stored : i ∈ op.places
    · simp only [stored, or_true]
    · rw [agree i stored]

/-- With `0xff` on the stack, the field `r8` is marked in every request, which a run with an empty
stack does not do. -/
theorem valid_bitmap_of_stack :
    ∃ validBitmap validBitmap',
      publishedBitmaps ((GhcbOperation.uartputcSev 0x41#8).run (fun _ => 0xff#8) id
        ⟨fun _ => 0#64, fun _ => 0#8, .base⟩).log = [validBitmap] ∧
      publishedBitmaps ((GhcbOperation.uartputcSev 0x41#8).run (fun _ => 0#8) id
        ⟨fun _ => 0#64, fun _ => 0#8, .base⟩).log = [validBitmap'] ∧
      BitField.bit validBitmap GhcbField.r8.place = true ∧
      BitField.bit validBitmap' GhcbField.r8.place = false ∧ validBitmap ≠ validBitmap' ∧
      ¬ Stored ((GhcbOperation.uartputcSev 0x41#8).run (fun _ => 0xff#8) id
        ⟨fun _ => 0#64, fun _ => 0#8, .base⟩).log GhcbField.r8.place := by
  have marked : BitField.bit (setValidBitmap (initialGuest fun _ => 0xff#8) .rax)
    GhcbField.r8.place = true := by decide
  have unmarked : BitField.bit (setValidBitmap (initialGuest fun _ => 0#8) .rax)
    GhcbField.r8.place = false := by decide
  refine ⟨_, _, rfl, rfl, marked, unmarked, ?_, ?_⟩
  · intro same
    have equal := congrArg (BitField.bit · GhcbField.r8.place) same
    exact absurd (marked.symm.trans (equal.trans unmarked)) (by decide)
  · rw [GhcbOperation.stored_iff]
    decide

end Operations

end Monza.Sev
