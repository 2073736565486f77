import Monza.Sev.SharedMemory
import Monza.Lib.BitField
import Monza.Lib.Bump
import Mathlib.Algebra.BigOperators.Ring.List

/-!
# Visible blocks and the requests behind them

Over a whole run the pages are made visible in order and the blocks are cut off in order behind
them, so that every frame of a block was requested once, before the block was returned.

The window of visible memory is taken for unused as long as its start is null. A pool that
starts at address zero would therefore be lost track of.
-/

namespace Monza.Sev

open Outcome Transition

/-- Sizes that can be rounded up. -/
def Requestable (size : Nat) : Prop := 1 ≤ size ∧ size ≤ 2 ^ 64 - 4096

/-- The values of the MSR at the exits of a call. -/
def VisibleUse.requests (use : VisibleUse) : List (BitVec 64) :=
  use.after.exits.drop use.before.exits.length

/-- A call with such a size that returned. -/
def serves (ps : PageSize) (aboveVtom : Span) (host : Host) (s : VisibleMemory)
    (use : VisibleUse) (t : VisibleMemory) : Prop :=
  Requestable use.size ∧ allocates ps aboveVtom host s use t

/-- The host grants every request to share a frame. -/
def Host.Grants (host : Host) : Prop :=
  ∀ exits frame, pageStateSuccess (host exits (pageStateRequest frame true)) = true

/-- The frame that the host switches to shared on a request: the frame number has 40 bits, the
operation the bits behind them. -/
def sharedFrame (request : BitVec 64) : Option Nat :=
  if request &&& 0xfff#64 = 0x014#64 ∧ request >>> 52 = 0x002#64 then
    some (request >>> 12 &&& 0xffffffffff#64).toNat
  else none

/-- The frames from one address to another. -/
def framesBetween (lo hi : Nat) : List Nat :=
  List.range' (lo / hvPageSize) (hi / hvPageSize - lo / hvPageSize)

/-! ## Requests -/

/-- The code, the frame and the state as digits of one number. -/
theorem toNat_pageStateRequest {frame : Nat} (small : frame < 2 ^ 40) (isShared : Bool) :
    (pageStateRequest frame isShared).toNat =
      (if isShared then 2 else 1) * 2 ^ 52 + (frame * 2 ^ 12 + 0x014) := by
  have number : (BitVec.ofNat 64 frame).toNat = frame := by
    rw [BitVec.toNat_ofNat, Nat.mod_eq_of_lt (by omega)]
  have state : (if isShared then 0x002#64 else 0x001#64).toNat = if isShared then 2 else 1 := by
    cases isShared <;> rfl
  have state_le : (if isShared then 2 else 1) ≤ 2 := by cases isShared <;> decide
  have low : (0x014#64 ||| BitVec.ofNat 64 frame <<< 12).toNat = frame * 2 ^ 12 + 0x014 := by
    rw [BitField.toNat_pack (by decide) (by rw [number]; omega), number]
    rfl
  rw [pageStateRequest, BitField.toNat_pack (by rw [low]; omega) (by rw [state]; omega), state, low]

theorem sharedFrame_pageStateRequest {frame : Nat} (small : frame < 2 ^ 40) :
    sharedFrame (pageStateRequest frame true) = some frame := by
  have number : (pageStateRequest frame true).toNat = 2 * 2 ^ 52 + (frame * 2 ^ 12 + 0x014) :=
    toNat_pageStateRequest small true
  have code : pageStateRequest frame true &&& 0xfff#64 = 0x014#64 := by
    apply BitVec.eq_of_toNat_eq
    refine (BitField.toNat_mask (k := 12) _ (by decide)).trans ?_
    change _ = 0x014
    rw [number]
    omega
  have state : pageStateRequest frame true >>> 52 = 0x002#64 := by
    apply BitVec.eq_of_toNat_eq
    change _ = 0x002
    rw [BitField.toNat_shift, number]
    omega
  rw [sharedFrame, if_pos ⟨code, state⟩]
  refine congrArg some ((BitField.toNat_mask (k := 40) _ (by decide)).trans ?_)
  rw [BitField.toNat_shift, number]
  omega

variable {host : Host} {c : GhcbChannel}

/-- The frames are requested in order. -/
theorem foldlM_switchFrame (grants : host.Grants) (frames : List Nat) : ∃ msr,
    frames.foldlM (fun c frame => switchFrame host true frame c) c =
      .ok ⟨msr, c.exits ++ frames.map (pageStateRequest · true)⟩ := by
  induction frames generalizing c with
  | nil => exact ⟨c.msr, by simp; rfl⟩
  | cons frame frames ih =>
      obtain ⟨msr, rest⟩ := ih (c := vmgexit host ⟨pageStateRequest frame true, c.exits⟩)
      refine ⟨msr, ?_⟩
      rw [List.foldlM_cons, switchFrame, if_neg (by simp [vmgexit, grants c.exits frame])]
      refine rest.trans ?_
      simp [vmgexit]

theorem updateStateForRange_shared (grants : host.Grants) (range : AddressRange) :
    updateStateForRange host range true c = .ok ([], ⟨c.msr, c.exits ++
      (framesBetween range.start range.stop).map (pageStateRequest · true)⟩) := by
  obtain ⟨msr, switched⟩ := foldlM_switchFrame (c := c) grants
    (framesBetween range.start range.stop)
  rw [framesBetween] at switched
  rw [updateStateForRange, loop_count (Nat.lt_succ_of_le (Nat.sub_le _ _)), switched]
  rfl

theorem framesBetween_append {lo mid hi : Nat} (first : lo ≤ mid) (last : mid ≤ hi) :
    framesBetween lo mid ++ framesBetween mid hi = framesBetween lo hi := by
  have lower : lo / hvPageSize ≤ mid / hvPageSize := Nat.div_le_div_right first
  have upper : mid / hvPageSize ≤ hi / hvPageSize := Nat.div_le_div_right last
  have joined := List.range'_append_1 (s := lo / hvPageSize)
    (m := mid / hvPageSize - lo / hvPageSize) (n := hi / hvPageSize - mid / hvPageSize)
  rw [Nat.add_sub_of_le lower, Nat.add_comm, Nat.sub_add_sub_cancel upper lower] at joined
  exact joined

theorem mem_framesBetween {lo hi frame : Nat} (aligned : lo % hvPageSize = 0)
    (alignedEnd : hi % hvPageSize = 0) : frame ∈ framesBetween lo hi ↔
      lo ≤ frame * hvPageSize ∧ frame * hvPageSize < hi := by
  rw [framesBetween, List.mem_range'_1]
  unfold hvPageSize at *
  omega

/-! ## One call -/

variable {ps : PageSize} {aboveVtom : Span} {s t : VisibleMemory} {handed size : Nat}

/-- The pool after `handed` bytes have been handed out: the window is what lies between them and
the end of the visible pages. -/
structure HandedOut (ps : PageSize) (aboveVtom : Span) (handed : Nat) (s : VisibleMemory) :
    Prop where
  offset : s.remainingVtomOffset ≤ aboveVtom.size
  pages : s.remainingVtomOffset % ps.bytes = 0
  balance : s.currentlySharedAvailable.size + handed = s.remainingVtomOffset
  place : s = .initial ∨ s.currentlySharedAvailable.data = aboveVtom.data + handed

/-- The pool in whole pages. -/
def wholePages (ps : PageSize) (aboveVtom : Span) : Nat :=
  aboveVtom.size / ps.bytes * ps.bytes

theorem HandedOut.initial : HandedOut ps aboveVtom 0 .initial :=
  ⟨Nat.zero_le _, Nat.zero_mod _, rfl, .inl rfl⟩

theorem HandedOut.offset_le (h : HandedOut ps aboveVtom handed s) :
    s.remainingVtomOffset ≤ wholePages ps aboveVtom := by
  rw [wholePages, ← Nat.div_mul_cancel (Nat.dvd_of_mod_eq_zero h.pages)]
  exact Nat.mul_le_mul_right _ (Nat.div_le_div_right h.offset)

/-- No further page fits behind the visible ones. -/
theorem HandedOut.offset_eq (h : HandedOut ps aboveVtom handed s)
    (full : aboveVtom.size < s.remainingVtomOffset + ps.bytes) :
    wholePages ps aboveVtom = s.remainingVtomOffset := by
  obtain ⟨offset, pages⟩ := And.intro h.offset h.pages
  rw [wholePages]
  cases ps <;> simp only [PageSize.bytes] at * <;> omega

theorem Requestable.alignUp (h : Requestable size) :
    0 < alignUp size hvPageSize ∧ alignUp size hvPageSize % hvPageSize = 0 := by
  refine ⟨Nat.lt_of_lt_of_le h.1 (le_alignUp (by decide) ?_), alignUp_mod _ _⟩
  have := h.2
  unfold hvPageSize
  omega

/-- The host reads the frames back from the requests. -/
theorem filterMap_sharedFrame {frames : List Nat} (small : ∀ frame ∈ frames, frame < 2 ^ 40) :
    (frames.map (pageStateRequest · true)).filterMap sharedFrame = frames := by
  rw [List.filterMap_map]
  refine (List.filterMap_congr fun frame h => ?_).trans List.filterMap_some
  exact sharedFrame_pageStateRequest (small frame h)

/-- What has been requested after any number of calls, as the host sees it. -/
theorem filterMap_requested (physical : aboveVtom.stop ≤ 2 ^ 52)
    (h : HandedOut ps aboveVtom handed t) :
    ((framesBetween aboveVtom.data (aboveVtom.data + t.remainingVtomOffset)).map
      (pageStateRequest · true)).filterMap sharedFrame =
    framesBetween aboveVtom.data (aboveVtom.data + t.remainingVtomOffset) := by
  refine filterMap_sharedFrame fun f hf => ?_
  have inside := h.offset
  rw [framesBetween, List.mem_range'_1] at hf
  rw [Span.stop] at physical
  unfold hvPageSize at hf
  omega

theorem hvPageSize_dvd (ps : PageSize) : hvPageSize ∣ ps.bytes := by
  cases ps <;> decide

section Pool

variable (grants : host.Grants) (nonnull : aboveVtom.data ≠ 0)
variable (physical : aboveVtom.stop ≤ 2 ^ 52)

include grants nonnull physical

/-- Another page, or none is left. -/
theorem expandVisible_handedOut (h : HandedOut ps aboveVtom handed s) :
    Sat (expandVisible ps aboveVtom host (s, c))
      (fun r => HandedOut ps aboveVtom handed r.1 ∧
        r.1.remainingVtomOffset = s.remainingVtomOffset + ps.bytes ∧
        r.2 = ⟨c.msr, c.exits ++ (framesBetween (aboveVtom.data + s.remainingVtomOffset)
          (aboveVtom.data + r.1.remainingVtomOffset)).map (pageStateRequest · true)⟩)
      (fun f => f = .kabort ∧ wholePages ps aboveVtom = s.remainingVtomOffset) := by
  have page : ps.bytes ≤ 2 ^ 21 := by cases ps <;> decide
  have inside := h.offset
  rw [Span.stop] at physical
  have wrap : u64 (s.remainingVtomOffset + ps.bytes) = s.remainingVtomOffset + ps.bytes :=
    u64_of_lt (by omega)
  by_cases full : s.remainingVtomOffset + ps.bytes > aboveVtom.size
  · simp only [expandVisible, wrap, if_pos full]
    exact ⟨rfl, h.offset_eq full⟩
  · have range : AddressRange.ofSpan ⟨aboveVtom.data + s.remainingVtomOffset, ps.bytes⟩ =
        ⟨aboveVtom.data + s.remainingVtomOffset,
          aboveVtom.data + (s.remainingVtomOffset + ps.bytes)⟩ := by
      rw [← Nat.add_assoc]
      exact congrArg (AddressRange.mk _) (u64_of_lt (by simp only; omega))
    simp only [expandVisible, wrap, if_neg full, range, updateStateForRange_shared grants]
    refine ⟨⟨Nat.le_of_not_lt full, ?_, ?_, .inr ?_⟩, rfl, rfl⟩
    · exact (Nat.add_mod_right _ _).trans h.pages
    · have balance := h.balance
      simp only
      omega
    · rcases h.place with rfl | place
      · have none : 0 + handed = 0 := h.balance
        rw [Nat.zero_add] at none
        rw [none]
        rfl
      · simp only
        rw [if_neg (by omega), place]

/-- Pages are added until the request fits, or to the end of the pool. -/
theorem expandUntil_handedOut (h : HandedOut ps aboveVtom handed s) {fuel : Nat}
    (budget : aboveVtom.size < s.remainingVtomOffset + ps.bytes * fuel) :
    Sat (expandUntil ps aboveVtom host size (fuel + 1) (s, c))
      (fun r => HandedOut ps aboveVtom handed r.1 ∧ size ≤ r.1.currentlySharedAvailable.size ∧
        s.remainingVtomOffset ≤ r.1.remainingVtomOffset ∧
        r.2 = ⟨c.msr, c.exits ++ (framesBetween (aboveVtom.data + s.remainingVtomOffset)
          (aboveVtom.data + r.1.remainingVtomOffset)).map (pageStateRequest · true)⟩)
      (fun f => f = .kabort ∧ wholePages ps aboveVtom < handed + size) := by
  induction fuel generalizing s c with
  | zero => exact absurd h.offset (by omega)
  | succ fuel ih =>
      rw [expandUntil]
      split
      next short =>
        have balance := h.balance
        refine ((expandVisible_handedOut grants nonnull physical h).mono (fun _ h => h) ?_).bind ?_
        · rintro f ⟨abort, full⟩
          exact ⟨abort, by simp only at short; omega⟩
        · rintro ⟨t, d⟩ ⟨next, grown, requested⟩
          simp only at grown requested
          refine (ih next ?_).mono_post ?_
          · rw [Nat.mul_succ] at budget
            change aboveVtom.size < t.remainingVtomOffset + _
            omega
          · rintro ⟨u, e⟩ ⟨last, enough, further, rest⟩
            refine ⟨last, enough, by simp only at further ⊢; omega, ?_⟩
            simp only at further rest ⊢
            rw [rest, requested, List.append_assoc, ← List.map_append,
              framesBetween_append (by omega) (by omega)]
      next enough =>
        refine ⟨h, Nat.le_of_not_lt enough, Nat.le_refl _, ?_⟩
        simp [framesBetween]

/-- A call cuts its block off behind the earlier ones, unless the pool cannot hold it. -/
theorem allocateVisibleSevVtom_handedOut (h : HandedOut ps aboveVtom handed s)
    (request : Requestable size) :
    Sat (allocateVisibleSevVtom ps aboveVtom host size (s, c))
      (fun r => r.1 = ⟨aboveVtom.data + handed, alignUp size hvPageSize⟩ ∧
        HandedOut ps aboveVtom (handed + alignUp size hvPageSize) r.2.1 ∧
        s.remainingVtomOffset ≤ r.2.1.remainingVtomOffset ∧
        r.2.2 = ⟨c.msr, c.exits ++ (framesBetween (aboveVtom.data + s.remainingVtomOffset)
          (aboveVtom.data + r.2.1.remainingVtomOffset)).map (pageStateRequest · true)⟩)
      (fun f => f = .kabort ∧
        wholePages ps aboveVtom < handed + alignUp size hvPageSize) := by
  have budget : aboveVtom.size <
      s.remainingVtomOffset + ps.bytes * (aboveVtom.size / ps.bytes + 1) :=
    Nat.lt_of_lt_of_le (Nat.lt_mul_div_succ _ ps.bytes_pos) (Nat.le_add_left _ _)
  refine (expandUntil_handedOut grants nonnull physical h budget).bind ?_
  rintro ⟨t, d⟩ ⟨last, enough, further, requested⟩
  have place : t.currentlySharedAvailable.data = aboveVtom.data + handed := by
    refine last.place.resolve_left fun initial => ?_
    rw [initial] at enough
    exact absurd enough (Nat.not_le.mpr request.alignUp.1)
  have balance := last.balance
  refine ⟨by rw [place], ⟨last.offset, last.pages, ?_, .inr ?_⟩, further, requested⟩
  · simp only at enough balance ⊢
    omega
  · simp only
    rw [place, Nat.add_assoc]

/-! ## Runs -/

variable {use : VisibleUse} {uses : List VisibleUse}

theorem serves.handedOut (step : serves ps aboveVtom host s use t)
    (h : HandedOut ps aboveVtom handed s) :
    use.block = ⟨aboveVtom.data + handed, alignUp use.size hvPageSize⟩ ∧
      HandedOut ps aboveVtom (handed + alignUp use.size hvPageSize) t ∧
      s.remainingVtomOffset ≤ t.remainingVtomOffset ∧ use.after.msr = use.before.msr ∧
      use.requests = (framesBetween (aboveVtom.data + s.remainingVtomOffset)
        (aboveVtom.data + t.remainingVtomOffset)).map (pageStateRequest · true) := by
  obtain ⟨request, done⟩ := step
  obtain ⟨block, handed, further, after⟩ :=
    (allocateVisibleSevVtom_handedOut grants nonnull physical h request).of_ok done
  have exits := congrArg GhcbChannel.exits after
  refine ⟨block, handed, further, (congrArg GhcbChannel.msr after).trans rfl, ?_⟩
  rw [VisibleUse.requests, exits, List.drop_left]

/-- A run hands out the rounded sizes and requests the frames of its pages in order. -/
theorem handedOut_of_run (run : Run (serves ps aboveVtom host) s uses t)
    (h : HandedOut ps aboveVtom handed s) :
    HandedOut ps aboveVtom
        (handed + (uses.map fun use => alignUp use.size hvPageSize).sum) t ∧
      s.remainingVtomOffset ≤ t.remainingVtomOffset ∧
      uses.flatMap VisibleUse.requests = (framesBetween (aboveVtom.data + s.remainingVtomOffset)
        (aboveVtom.data + t.remainingVtomOffset)).map (pageStateRequest · true) := by
  induction run generalizing handed with
  | nil s =>
      refine ⟨h, Nat.le_refl _, ?_⟩
      simp [framesBetween]
  | cons first _ ih =>
      obtain ⟨-, next, further, -, requested⟩ := first.handedOut grants nonnull physical h
      obtain ⟨last, further', rest⟩ := ih next
      refine ⟨?_, Nat.le_trans further further', ?_⟩
      · rw [List.map_cons, List.sum_cons, ← Nat.add_assoc]
        exact last
      · rw [List.flatMap_cons, requested, rest, ← List.map_append,
          framesBetween_append (Nat.add_le_add_left further _) (Nat.add_le_add_left further' _)]

/-- The calls of a run, each with the run that led to it. -/
theorem handedOut_of_split {pre post : List VisibleUse}
    (run : Run (serves ps aboveVtom host) .initial (pre ++ use :: post) s) :
    ∃ handed t, hvPageSize ∣ handed ∧
      HandedOut ps aboveVtom (handed + alignUp use.size hvPageSize) t ∧
      use.block = ⟨aboveVtom.data + handed, alignUp use.size hvPageSize⟩ ∧
      use.after.msr = use.before.msr ∧ (pre ++ [use]).flatMap VisibleUse.requests =
        (framesBetween aboveVtom.data (aboveVtom.data + t.remainingVtomOffset)).map
          (pageStateRequest · true) := by
  obtain ⟨u, first, rest⟩ := run.of_append
  cases rest with
  | cons step _ =>
      obtain ⟨before, -, -⟩ := handedOut_of_run grants nonnull physical first .initial
      obtain ⟨block, after, -, msr, -⟩ := step.handedOut grants nonnull physical before
      obtain ⟨-, -, requested⟩ := handedOut_of_run grants nonnull physical
        (first.append (Run.single.mpr step)) .initial
      refine ⟨_, _, ?_, after, block, msr, requested⟩
      rw [Nat.zero_add]
      apply List.dvd_sum
      exact List.forall_mem_map.mpr fun use _ => Nat.dvd_of_mod_eq_zero (alignUp_mod _ _)

/-- The blocks of a run lie one behind the other. -/
theorem blocks_between (run : Run (serves ps aboveVtom host) .initial uses s) :
    uses.Pairwise fun use later => use.block.stop ≤ later.block.data := by
  have ordered := Bump.between_of_run (fun s => ∃ handed, HandedOut ps aboveVtom handed s)
    (fun s => aboveVtom.data + (s.remainingVtomOffset - s.currentlySharedAvailable.size))
    (fun use : VisibleUse => [(use.block.data, use.block.stop)])
    (fun s use t ⟨_, h⟩ step => ⟨_, (step.handedOut grants nonnull physical h).2.1⟩) ?_ run
    ⟨0, .initial⟩
  · rw [← List.map_eq_flatMap] at ordered
    exact List.pairwise_map.mp ordered.pairwise
  · rintro s use t ⟨handed, h⟩ step
    obtain ⟨block, after, -, -, -⟩ := step.handedOut grants nonnull physical h
    have balance := h.balance
    have balance' := after.balance
    rw [block, Span.stop]
    refine ⟨?_, Nat.le_add_right _ _, ?_⟩
    · simp only
      omega
    · simp only [Bump.Between]
      omega

/-- A call aborts exactly if the rest of the whole pages cannot hold it. -/
theorem kabort_iff_of_handedOut (h : HandedOut ps aboveVtom handed s) (request : Requestable size) :
    (allocateVisibleSevVtom ps aboveVtom host size (s, c) = .error .kabort ↔
      wholePages ps aboveVtom < handed + alignUp size hvPageSize) ∧
    (allocateVisibleSevVtom ps aboveVtom host size (s, c) = .error .kabort ∨
      ∃ r, allocateVisibleSevVtom ps aboveVtom host size (s, c) = .ok r) := by
  have call := allocateVisibleSevVtom_handedOut (c := c) grants nonnull physical h request
  cases outcome : allocateVisibleSevVtom ps aboveVtom host size (s, c) with
  | error fault =>
      rw [outcome] at call
      obtain ⟨rfl, short⟩ := call
      exact ⟨⟨fun _ => short, fun _ => rfl⟩, .inl rfl⟩
  | ok r =>
      rw [outcome] at call
      obtain ⟨-, after, -, -⟩ := call
      have balance := after.balance
      have whole := after.offset_le
      exact ⟨⟨fun no => (by cases no), fun short => absurd short (by omega)⟩, .inr ⟨r, rfl⟩⟩

/-- The block of a call is aligned and in the pool, and the MSR is as before. -/
theorem block_of_mem (base : hvPageSize ∣ aboveVtom.data)
    (run : Run (serves ps aboveVtom host) .initial uses s) (mem : use ∈ uses) :
    use.block.size = alignUp use.size hvPageSize ∧ use.block.data % hvPageSize = 0 ∧
      aboveVtom.data ≤ use.block.data ∧ use.block.stop ≤ aboveVtom.stop ∧
      use.after.msr = use.before.msr := by
  have pool := block_of_run nonnull physical (run.mono fun _ _ _ step => step.2) .initial use mem
  obtain ⟨pre, post, rfl⟩ := List.append_of_mem mem
  obtain ⟨handed, t, whole, -, block, msr, -⟩ := handedOut_of_split grants nonnull physical run
  have request : Requestable use.size := by
    obtain ⟨u, -, rest⟩ := run.of_append
    cases rest with
    | cons step _ => exact step.1
  simp only [block] at pool ⊢
  obtain ⟨start, stop⟩ := pool.resolve_left (Nat.ne_of_gt request.alignUp.1)
  exact ⟨trivial, Nat.mod_eq_zero_of_dvd (Nat.dvd_add base whole), start, stop, msr⟩

/-- Each frame of a block has been switched once when the block is returned. -/
theorem count_frame_of_split {pre post : List VisibleUse} {frame : Nat}
    (base : hvPageSize ∣ aboveVtom.data)
    (run : Run (serves ps aboveVtom host) .initial (pre ++ use :: post) s)
    (start : use.block.data ≤ frame * hvPageSize) (stop : frame * hvPageSize < use.block.stop) :
    (((pre ++ [use]).flatMap VisibleUse.requests).filterMap sharedFrame).count frame = 1 := by
  obtain ⟨handed, t, whole, after, block, -, requested⟩ :=
    handedOut_of_split grants nonnull physical run
  rw [requested, filterMap_requested physical after]
  refine List.count_eq_one_of_mem List.nodup_range' ?_
  have balance := after.balance
  have stopped := Nat.dvd_add base ((hvPageSize_dvd ps).trans (Nat.dvd_of_mod_eq_zero after.pages))
  rw [mem_framesBetween (Nat.mod_eq_zero_of_dvd base) (Nat.mod_eq_zero_of_dvd stopped)]
  rw [block] at start stop
  rw [Span.stop] at stop
  simp only at start stop
  omega

end Pool

/-- The calls from a pool of physical memory that does not start at zero, with a host that grants
its requests. A call aborts exactly if the rest of the whole pages cannot hold it. The blocks lie
in the pool, one behind the other and aligned. No frame is switched twice, each frame of a block
once before the block is returned, and every call leaves the MSR as it was. -/
theorem visible_blocks_shared_once {uses : List VisibleUse}
    (aligned : aboveVtom.data % ps.bytes = 0) (nonnull : aboveVtom.data ≠ 0)
    (physical : aboveVtom.stop ≤ 2 ^ 52) (grants : host.Grants)
    (run : Run (serves ps aboveVtom host) .initial uses s) :
    (∀ size c, Requestable size →
      (allocateVisibleSevVtom ps aboveVtom host size (s, c) = .error .kabort ↔
        wholePages ps aboveVtom <
          (uses.map fun use => alignUp use.size hvPageSize).sum + alignUp size hvPageSize) ∧
      (allocateVisibleSevVtom ps aboveVtom host size (s, c) = .error .kabort ∨
        ∃ r, allocateVisibleSevVtom ps aboveVtom host size (s, c) = .ok r)) ∧
    (∀ use ∈ uses, use.block.size = alignUp use.size hvPageSize ∧
      use.block.data % hvPageSize = 0 ∧ aboveVtom.data ≤ use.block.data ∧
      use.block.stop ≤ aboveVtom.stop ∧ use.after.msr = use.before.msr) ∧
    (uses.Pairwise fun use later => use.block.stop ≤ later.block.data) ∧
    ((uses.flatMap VisibleUse.requests).filterMap sharedFrame).Nodup ∧
    ∀ pre use post, uses = pre ++ use :: post → ∀ frame,
      use.block.data ≤ frame * hvPageSize → frame * hvPageSize < use.block.stop →
        (((pre ++ [use]).flatMap VisibleUse.requests).filterMap sharedFrame).count frame = 1 := by
  have base : hvPageSize ∣ aboveVtom.data :=
    (hvPageSize_dvd ps).trans (Nat.dvd_of_mod_eq_zero aligned)
  obtain ⟨last, -, requested⟩ := handedOut_of_run grants nonnull physical run .initial
  refine ⟨fun size c request => ?_, fun use => block_of_mem grants nonnull physical base run,
    blocks_between grants nonnull physical run, ?_, ?_⟩
  · rw [Nat.zero_add] at last
    exact kabort_iff_of_handedOut grants nonnull physical last request
  · rw [requested]
    exact (filterMap_requested physical last).symm ▸ List.nodup_range'
  · rintro pre use post rfl f start stop
    exact count_frame_of_split grants nonnull physical base run start stop

theorem grantingHost_grants : grantingHost.Grants := by
  intro exits frame
  change pageStateSuccess 0x015#64 = true
  decide

/-- A block of two frames from a pool of four, while the MSR holds the address of a GHCB. -/
theorem visible_blocks_shared_once_two_frames : ∃ use s,
    Run (serves .kib4 ⟨0x5000000, 0x4000⟩ grantingHost) .initial [use] s ∧
    use.before.msr = 0x400000#64 ∧ use.size = 0x1800 ∧ use.block = ⟨0x5000000, 0x2000⟩ ∧
    (use.requests.filterMap sharedFrame).count 0x5001 = 1 := by
  let use : VisibleUse := ⟨0x1800, ⟨0x400000#64, []⟩, ⟨0x5000000, 0x2000⟩,
    ⟨0x400000#64, [pageStateRequest 0x5000 true, pageStateRequest 0x5001 true]⟩⟩
  have run : Run (serves .kib4 ⟨0x5000000, 0x4000⟩ grantingHost) .initial [use]
      ⟨⟨0x5002000, 0⟩, 0x2000⟩ :=
    Run.single.mpr ⟨⟨by decide, by decide⟩, by decide +kernel⟩
  obtain ⟨-, -, -, -, once⟩ := visible_blocks_shared_once (by decide) (by decide) (by decide)
    grantingHost_grants run
  refine ⟨use, _, run, rfl, rfl, rfl, ?_⟩
  have count := once [] use [] rfl 0x5001 (by decide) (by decide)
  rw [List.nil_append, List.flatMap_singleton] at count
  exact count

/-- From a pool at address zero, the second page replaces the first: the block ends behind the
pool, and its last frame was never requested. -/
theorem visible_block_lost_at_zero :
    allocateVisibleSevVtom .kib4 ⟨0, 0x2000⟩ grantingHost 0x2000 (.initial, ⟨0x400000#64, []⟩) =
      .ok (⟨0x1000, 0x2000⟩, ⟨⟨0x3000, 0⟩, 0x2000⟩,
        ⟨0x400000#64, [pageStateRequest 0 true, pageStateRequest 1 true]⟩) := by
  decide +kernel

end Monza.Sev
