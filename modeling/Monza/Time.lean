import Monza.Machine
import Monza.Lib.Arith

/-!
# The clock

The time is counted in ticks of the processor. The time of the epoch at boot is kept in whole
seconds and ticks, and so is the time since boot; the two are added with a carry. The counter of
ticks is a word and may wrap.

On KVM the frequency of the ticks is that of a processor leaf, in kHz.
-/

namespace Monza

def nsInS : Nat := 1000000000

structure Timespec where
  tvSec : Int
  tvNsec : Int
  deriving DecidableEq, Repr

structure PreciseTimespec where
  tvSec : Int
  tvTick : Nat
  deriving DecidableEq, Repr

/-- The variables `time_at_boot` and `ticks_at_boot`. -/
structure Clock where
  timeAtBoot : PreciseTimespec
  ticksAtBoot : Nat
  deriving DecidableEq, Repr

section Definitions

variable {m : Type → Type} [Monad m] (arith : Arithmetic m) (tscFreq : Nat)

def tickToNs (tick : Nat) : m Int := do
  let product ← arith.unsigned 64 (tick * nsInS)
  arith.signed 64 (product / tscFreq : Nat)

def nsToTick (ns : Nat) : m Nat := do
  let product ← arith.unsigned 64 (ns * tscFreq)
  pure (product / nsInS)

/-- The difference is meant to wrap. -/
def getElapsedTicks (clock : Clock) (currentTicks : Nat) : Nat :=
  sub64 currentTicks clock.ticksAtBoot

/-- `init_timing`, at a value of the counter. The nanoseconds are converted to a `uint64_t`. -/
def initTiming (measuredTime : Timespec) (tick : Nat) : m Clock := do
  let tvTick ← nsToTick arith tscFreq (measuredTime.tvNsec % 2 ^ 64).toNat
  pure ⟨⟨measuredTime.tvSec, tvTick⟩, tick⟩

/-- The time at boot is added for absolute times. -/
def addTimeAtBoot (clock : Clock) (currentTime : PreciseTimespec) : m PreciseTimespec := do
  let tvSec ← arith.signed 64 (currentTime.tvSec + clock.timeAtBoot.tvSec)
  let tvTick ← arith.unsigned 64 (currentTime.tvTick + clock.timeAtBoot.tvTick)
  let carry ← arith.signed 64 (tvTick / tscFreq : Nat)
  let tvSec ← arith.signed 64 (tvSec + carry)
  pure ⟨tvSec, tvTick % tscFreq⟩

def getTimespec (clock : Clock) (currentTicks : Nat) (sinceBoot : Bool) : m Timespec := do
  let elapsedTicks := getElapsedTicks clock currentTicks
  let tvSec ← arith.signed 64 (elapsedTicks / tscFreq : Nat)
  let currentTime : PreciseTimespec := ⟨tvSec, elapsedTicks % tscFreq⟩
  let currentTime ← if !sinceBoot then addTimeAtBoot arith tscFreq clock currentTime
    else pure currentTime
  let tvNsec ← tickToNs arith tscFreq currentTime.tvTick
  pure ⟨currentTime.tvSec, tvNsec⟩

/-- A clock that is set at a value of the counter and read after so many ticks. -/
def readClock (measuredTime : Timespec) (ticksAtBoot elapsedTicks : Nat) (sinceBoot : Bool) :
    m Timespec := do
  let clock ← initTiming arith tscFreq measuredTime ticksAtBoot
  getTimespec arith tscFreq clock (u64 (ticksAtBoot + elapsedTicks)) sinceBoot

end Definitions

/-! ## Exactness -/

/-- So many ticks as seconds and nanoseconds. -/
def timespecOf (tscFreq ticks : Nat) : Timespec :=
  ⟨(ticks / tscFreq : Nat), (ticks % tscFreq * nsInS / tscFreq : Nat)⟩

section Exact

variable {m : Type → Type} [Monad m] {arith : Arithmetic m}
variable {tscFreq tick ns elapsedTicks : Nat} {clock : Clock}

theorem signed_eq (exact : arith.Exact) {n : Nat} (small : n < 2 ^ 63) :
    arith.signed 64 (n : Int) = pure (n : Int) :=
  exact.signed (by decide) (by omega) (by omega)

variable [LawfulMonad m]

theorem tick_div_lt (less : tick < tscFreq) : tick * nsInS / tscFreq < nsInS := by
  rw [Nat.div_lt_iff_lt_mul (Nat.zero_lt_of_lt less), Nat.mul_comm nsInS]
  exact Nat.mul_lt_mul_of_pos_right less (by decide)

theorem tickToNs_eq (exact : arith.Exact) (freq : (tscFreq - 1) * nsInS < 2 ^ 64)
    (less : tick < tscFreq) :
    tickToNs arith tscFreq tick = pure ((tick * nsInS / tscFreq : Nat) : Int) := by
  have product : tick * nsInS < 2 ^ 64 :=
    Nat.lt_of_le_of_lt (Nat.mul_le_mul_right _ (by omega)) freq
  have small : tick * nsInS / tscFreq < 2 ^ 63 :=
    Nat.lt_trans (tick_div_lt less) (by decide)
  rw [tickToNs, exact.unsigned product, pure_bind, signed_eq exact small]

/-- The frequency that keeps the conversion of ticks from overflowing does so for nanoseconds. -/
theorem ns_mul_lt (freq : (tscFreq - 1) * nsInS < 2 ^ 64) (less : ns < nsInS) :
    ns * tscFreq < 2 ^ 64 := by
  have bound : ns * tscFreq ≤ (nsInS - 1) * tscFreq := Nat.mul_le_mul_right _ (by omega)
  rw [nsInS] at *
  omega

theorem nsToTick_eq (exact : arith.Exact) (freq : (tscFreq - 1) * nsInS < 2 ^ 64)
    (less : ns < nsInS) : nsToTick arith tscFreq ns = pure (ns * tscFreq / nsInS) := by
  rw [nsToTick, exact.unsigned (ns_mul_lt freq less), pure_bind]

theorem ns_div_lt (pos : 0 < tscFreq) (less : ns < nsInS) : ns * tscFreq / nsInS < tscFreq := by
  rw [Nat.div_lt_iff_lt_mul (by decide), Nat.mul_comm tscFreq]
  exact Nat.mul_lt_mul_of_pos_right less pos

/-- The wrapping difference is the number of ticks, also if the counter has wrapped. -/
theorem getElapsedTicks_eq (boot : clock.ticksAtBoot < 2 ^ 64) (elapsed : elapsedTicks < 2 ^ 64) :
    getElapsedTicks clock (u64 (clock.ticksAtBoot + elapsedTicks)) = elapsedTicks := by
  rw [getElapsedTicks]
  unfold sub64 u64
  omega

theorem getTimespec_sinceBoot (exact : arith.Exact) (pos : 0 < tscFreq)
    (freq : (tscFreq - 1) * nsInS < 2 ^ 64) (boot : clock.ticksAtBoot < 2 ^ 64)
    (elapsed : elapsedTicks < 2 ^ 64) (range : elapsedTicks / tscFreq < 2 ^ 63) :
    getTimespec arith tscFreq clock (u64 (clock.ticksAtBoot + elapsedTicks)) true =
      pure (timespecOf tscFreq elapsedTicks) := by
  rw [getTimespec, getElapsedTicks_eq boot elapsed, signed_eq exact range, pure_bind]
  simp only [Bool.not_true, Bool.false_eq_true, if_false, pure_bind,
    tickToNs_eq exact freq (Nat.mod_lt elapsedTicks pos)]
  rfl

/-- Seconds and ticks are those of the sum of all ticks, with the carry. -/
theorem addTimeAtBoot_eq (exact : arith.Exact) {bootSec bootTick sec : Nat} (pos : 0 < tscFreq)
    (freq : (tscFreq - 1) * nsInS < 2 ^ 64) (time : clock.timeAtBoot = ⟨bootSec, bootTick⟩)
    (below : bootTick < tscFreq) (less : tick < tscFreq) (range : bootSec + sec + 1 < 2 ^ 63) :
    addTimeAtBoot arith tscFreq clock ⟨sec, tick⟩ =
      pure ⟨((bootSec * tscFreq + bootTick + (sec * tscFreq + tick)) / tscFreq : Nat),
        (bootSec * tscFreq + bootTick + (sec * tscFreq + tick)) % tscFreq⟩ := by
  have small : tscFreq < 2 ^ 63 := by
    rw [nsInS] at freq
    omega
  have carry : (tick + bootTick) / tscFreq ≤ 1 := by
    rw [← Nat.lt_succ_iff, Nat.div_lt_iff_lt_mul pos]
    omega
  have sum : bootSec * tscFreq + bootTick + (sec * tscFreq + tick) =
      tick + bootTick + (sec + bootSec) * tscFreq := by ring
  rw [addTimeAtBoot, time]
  dsimp only
  rw [← Int.natCast_add, signed_eq exact (by omega), pure_bind, exact.unsigned (by omega),
    pure_bind, signed_eq exact (by omega), pure_bind, ← Int.natCast_add,
    signed_eq exact (by omega), pure_bind, sum, Nat.add_mul_div_right _ _ pos,
    Nat.add_mul_mod_self_right, Nat.add_comm (sec + bootSec)]

theorem getTimespec_epoch (exact : arith.Exact) {bootSec bootTick : Nat} (pos : 0 < tscFreq)
    (freq : (tscFreq - 1) * nsInS < 2 ^ 64) (time : clock.timeAtBoot = ⟨bootSec, bootTick⟩)
    (below : bootTick < tscFreq) (boot : clock.ticksAtBoot < 2 ^ 64)
    (elapsed : elapsedTicks < 2 ^ 64) (range : bootSec + elapsedTicks / tscFreq + 1 < 2 ^ 63) :
    getTimespec arith tscFreq clock (u64 (clock.ticksAtBoot + elapsedTicks)) false =
      pure (timespecOf tscFreq (bootSec * tscFreq + bootTick + elapsedTicks)) := by
  have split : elapsedTicks / tscFreq * tscFreq + elapsedTicks % tscFreq = elapsedTicks :=
    Nat.div_add_mod' elapsedTicks tscFreq
  rw [getTimespec, getElapsedTicks_eq boot elapsed, signed_eq exact (by omega), pure_bind]
  simp only [Bool.not_false, if_true,
    addTimeAtBoot_eq exact pos freq time below (Nat.mod_lt elapsedTicks pos) range, split,
    pure_bind, tickToNs_eq exact freq (Nat.mod_lt _ pos)]
  rfl

end Exact

/-! ## Order -/

/-- Lexicographic order. -/
def Timespec.Le (a b : Timespec) : Prop :=
  a.tvSec < b.tvSec ∨ a.tvSec = b.tvSec ∧ a.tvNsec ≤ b.tvNsec

theorem timespecOf_le {tscFreq a b : Nat} (le : a ≤ b) :
    (timespecOf tscFreq a).Le (timespecOf tscFreq b) := by
  rcases Nat.lt_or_eq_of_le (Nat.div_le_div_right (c := tscFreq) le) with less | same
  · exact .inl (Int.ofNat_lt.mpr less)
  · refine .inr ⟨congrArg Nat.cast same, Int.ofNat_le.mpr ?_⟩
    apply Nat.div_le_div_right
    apply Nat.mul_le_mul_right
    have ha := Nat.div_add_mod a tscFreq
    have hb := Nat.div_add_mod b tscFreq
    rw [same] at ha
    omega

theorem timespecOf_nsec {tscFreq : Nat} (pos : 0 < tscFreq) (ticks : Nat) :
    0 ≤ (timespecOf tscFreq ticks).tvNsec ∧ (timespecOf tscFreq ticks).tvNsec < nsInS :=
  ⟨Int.natCast_nonneg _, Int.ofNat_lt.mpr (tick_div_lt (Nat.mod_lt ticks pos))⟩

/-- All ticks since the epoch, those of the time at boot included, or only those since boot. -/
def allTicks (tscFreq : Nat) (measuredTime : Timespec) (elapsedTicks : Nat) (sinceBoot : Bool) :
    Nat :=
  if sinceBoot then elapsedTicks
  else measuredTime.tvSec.toNat * tscFreq + measuredTime.tvNsec.toNat * tscFreq / nsInS +
    elapsedTicks

/-- What is assumed of the frequency, of the time at boot and of the counter. -/
structure ClockRange (tscFreq : Nat) (measuredTime : Timespec) (ticksAtBoot elapsedTicks : Nat) :
    Prop where
  pos : 0 < tscFreq
  freq : (tscFreq - 1) * nsInS < 2 ^ 64
  sec : 0 ≤ measuredTime.tvSec
  nsec : 0 ≤ measuredTime.tvNsec ∧ measuredTime.tvNsec < nsInS
  boot : ticksAtBoot < 2 ^ 64
  elapsed : elapsedTicks < 2 ^ 64
  range : measuredTime.tvSec + elapsedTicks / tscFreq + 1 < 2 ^ 63

section Clocks

variable {m : Type → Type} [Monad m] [LawfulMonad m] {arith : Arithmetic m} {tscFreq : Nat}
variable {measuredTime : Timespec} {ticksAtBoot elapsedTicks earlier : Nat}

theorem ClockRange.mono (h : ClockRange tscFreq measuredTime ticksAtBoot elapsedTicks)
    (le : earlier ≤ elapsedTicks) : ClockRange tscFreq measuredTime ticksAtBoot earlier := by
  have less := Nat.div_le_div_right (c := tscFreq) le
  have range := h.range
  refine ⟨h.pos, h.freq, h.sec, h.nsec, h.boot, Nat.lt_of_le_of_lt le h.elapsed, ?_⟩
  omega

theorem readClock_eq (exact : arith.Exact)
    (h : ClockRange tscFreq measuredTime ticksAtBoot elapsedTicks) (sinceBoot : Bool) :
    readClock arith tscFreq measuredTime ticksAtBoot elapsedTicks sinceBoot =
      pure (timespecOf tscFreq (allTicks tscFreq measuredTime elapsedTicks sinceBoot)) := by
  obtain ⟨tvSec, tvNsec⟩ := measuredTime
  obtain ⟨sec, rfl⟩ := Int.eq_ofNat_of_zero_le h.sec
  obtain ⟨nsec, rfl⟩ := Int.eq_ofNat_of_zero_le h.nsec.1
  have less : nsec < nsInS := Int.ofNat_lt.mp h.nsec.2
  have range : sec + elapsedTicks / tscFreq + 1 < 2 ^ 63 := by
    have := h.range
    dsimp only at this
    omega
  have same : ((nsec : Int) % 2 ^ 64).toNat = nsec := by
    rw [nsInS] at less
    omega
  rw [readClock, initTiming]
  dsimp only
  rw [same, nsToTick_eq exact h.freq less, pure_bind, pure_bind]
  cases sinceBoot with
  | true => exact getTimespec_sinceBoot exact h.pos h.freq h.boot h.elapsed (by omega)
  | false =>
      exact getTimespec_epoch exact h.pos h.freq rfl (ns_div_lt h.pos less) h.boot h.elapsed range

end Clocks

/-- The clock computes what it should, without an overflow on the way, and never runs back. -/
theorem clock_exact_and_monotonic (tscFreq : Nat) (measuredTime : Timespec)
    (ticksAtBoot elapsedTicks : Nat)
    (h : ClockRange tscFreq measuredTime ticksAtBoot elapsedTicks) (sinceBoot : Bool) :
    readClock .checked tscFreq measuredTime ticksAtBoot elapsedTicks sinceBoot =
      some (timespecOf tscFreq (allTicks tscFreq measuredTime elapsedTicks sinceBoot)) ∧
    readClock .wrapping tscFreq measuredTime ticksAtBoot elapsedTicks sinceBoot =
      timespecOf tscFreq (allTicks tscFreq measuredTime elapsedTicks sinceBoot) ∧
    (0 ≤ Timespec.tvNsec (readClock .wrapping tscFreq measuredTime ticksAtBoot elapsedTicks
        sinceBoot) ∧
      Timespec.tvNsec (readClock .wrapping tscFreq measuredTime ticksAtBoot elapsedTicks
        sinceBoot) < nsInS) ∧
    ∀ earlier ≤ elapsedTicks, Timespec.Le
      (readClock .wrapping tscFreq measuredTime ticksAtBoot earlier sinceBoot)
      (readClock .wrapping tscFreq measuredTime ticksAtBoot elapsedTicks sinceBoot) := by
  have machine : ∀ ticks ≤ elapsedTicks,
      readClock .wrapping tscFreq measuredTime ticksAtBoot ticks sinceBoot =
        timespecOf tscFreq (allTicks tscFreq measuredTime ticks sinceBoot) :=
    fun ticks le => readClock_eq Arithmetic.wrapping_exact (h.mono le) sinceBoot
  refine ⟨readClock_eq Arithmetic.checked_exact h sinceBoot, machine _ (Nat.le_refl _), ?_, ?_⟩
  · rw [machine _ (Nat.le_refl _)]
    exact timespecOf_nsec h.pos _
  · intro earlier le
    rw [machine _ (Nat.le_refl _), machine _ le]
    apply timespecOf_le
    cases sinceBoot with
    | true => exact le
    | false => exact Nat.add_le_add_left le _

/-- A counter that wraps, and a carry into the seconds. -/
theorem clock_exact_and_monotonic_carry :
    readClock .wrapping 2000000000 ⟨1700000000, 999999999⟩ (2 ^ 64 - 1) 3 false =
      (⟨1700000001, 0⟩ : Timespec) := by
  have range : ClockRange 2000000000 ⟨1700000000, 999999999⟩ (2 ^ 64 - 1) 3 :=
    ⟨by decide, by decide, by decide, by decide, by decide, by decide, by decide⟩
  rw [(clock_exact_and_monotonic _ _ _ _ range false).2.1]
  exact (by decide : timespecOf 2000000000 (allTicks 2000000000 ⟨1700000000, 999999999⟩ 3 false) =
    ⟨1700000001, 0⟩)

/-! ## The frequency -/

def kvmX64CpuidTiming : Nat := 0x40000010

/-- `init_kvm`: the new value of `tsc_freq`. The register is a `uint32_t`, and so is the product. -/
def initKvm {m : Type → Type} [Monad m] (arith : Arithmetic m)
    (cpuidHypervisorMaxleaf tscFreqKhz tscFreq : Nat) : m Nat :=
  if cpuidHypervisorMaxleaf ≥ kvmX64CpuidTiming then arith.unsigned 32 (tscFreqKhz * 1000)
  else pure tscFreq

/-- The frequency is that of the leaf, and so many ticks are so many seconds. -/
structure RightRate (tscFreqKhz tscFreq : Nat) : Prop where
  freq : tscFreq = 1000 * tscFreqKhz
  seconds : ∀ (clock : Clock) (s : Nat), clock.ticksAtBoot < 2 ^ 64 →
    1000 * tscFreqKhz * s < 2 ^ 64 →
    getTimespec .wrapping tscFreq clock (u64 (clock.ticksAtBoot + 1000 * tscFreqKhz * s)) true =
      (⟨s, 0⟩ : Timespec)

theorem timespecOf_mul {tscFreq : Nat} (pos : 0 < tscFreq) (s : Nat) :
    timespecOf tscFreq (tscFreq * s) = ⟨s, 0⟩ := by
  rw [timespecOf, Nat.mul_div_cancel_left s pos, Nat.mul_mod_right, Nat.zero_mul, Nat.zero_div]
  rfl

/-- The rate is right exactly if the frequency in Hz is still a word of 32 bits. -/
theorem kvm_frequency_iff (cpuidHypervisorMaxleaf tscFreqKhz before : Nat)
    (leaf : kvmX64CpuidTiming ≤ cpuidHypervisorMaxleaf) (nonzero : tscFreqKhz ≠ 0) :
    RightRate tscFreqKhz (initKvm .wrapping cpuidHypervisorMaxleaf tscFreqKhz before) ↔
      tscFreqKhz * 1000 < 2 ^ 32 := by
  have machine : initKvm .wrapping cpuidHypervisorMaxleaf tscFreqKhz before =
      tscFreqKhz * 1000 % 2 ^ 32 := if_pos leaf
  rw [machine]
  constructor
  · rintro ⟨freq, -⟩
    omega
  · intro small
    rw [Nat.mod_eq_of_lt small, Nat.mul_comm]
    have pos : 0 < 1000 * tscFreqKhz := by omega
    have freq : (1000 * tscFreqKhz - 1) * nsInS < 2 ^ 64 :=
      Nat.lt_of_le_of_lt (Nat.mul_le_mul_right nsInS (by omega : _ ≤ 2 ^ 32)) (by decide)
    refine ⟨rfl, fun clock s boot elapsed => ?_⟩
    have seconds : s * 1000 ≤ 1000 * tscFreqKhz * s := by
      rw [Nat.mul_comm s]
      exact Nat.mul_le_mul_right s (Nat.le_mul_of_pos_right 1000 (Nat.pos_of_ne_zero nonzero))
    have range : 1000 * tscFreqKhz * s / (1000 * tscFreqKhz) < 2 ^ 63 := by
      rw [Nat.mul_div_cancel_left s pos]
      omega
    rw [getTimespec_sinceBoot Arithmetic.wrapping_exact pos freq boot elapsed range,
      timespecOf_mul pos]
    rfl

theorem kvm_frequency_iff_two_ghz :
    RightRate 2000000 (initKvm .wrapping 0x40000010 2000000 2000000000) :=
  (kvm_frequency_iff 0x40000010 2000000 2000000000 (by decide) (by decide)).mpr (by decide)

/-- At 4.5 GHz, what is left of the frequency is 205 MHz, and a second is shown as more than 21. -/
theorem kvm_frequency_wraps :
    (initKvm .wrapping 0x40000010 4500000 2000000000).run = 205032704 ∧
    (getTimespec .wrapping 205032704 ⟨⟨0, 0⟩, 0⟩ (1000 * 4500000) true).run.tvSec = 21 := by
  decide

end Monza
