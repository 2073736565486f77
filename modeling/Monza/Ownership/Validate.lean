import Monza.Ownership.Pagemap
import Mathlib.Data.Nat.Find

/-!
# Checking the ownership of a range

`validate_owner_range` looks at one address per block, starting at an address that
need not be aligned, and computes the end of the range in 64 bits. So it can leave
out the last block of a range, it accepts a range that wraps, and it runs past the
end of the address space when its stride does.
-/

namespace Monza

open Outcome

namespace OwnershipMap

section

variable (unit : Nat) (m : OwnershipMap) (owner : CompartmentOwner)

/-- One head of the loop in `validate_owner_range`. -/
def ownerVerdict (stop a : Nat) : Option Bool :=
  if a < stop then if getMonzaOwner unit m a ≠ owner then some false else none else some true

def validateOwnerRange (p size : Nat) : Result Bool :=
  scan .diverge (ownerVerdict unit m owner (u64 (p + size))) (fun a => u64 (a + unit))
    blockLoopBudget p

/-- `validate_owner<T>`; `sizeT` is `sizeof(T)`. -/
def validateOwner (sizeT ptr size : Nat) : Result Bool :=
  validateOwnerRange unit m owner ptr (u64 (sizeT * size))

/-- What both functions are for: all bytes exist and belong to the owner. -/
def Owns (p size : Nat) : Prop :=
  ∀ b, p ≤ b → b < p + size → b < 2 ^ 64 ∧ getMonzaOwner unit m b = owner

/-- The first address of the stride behind a range. -/
def strideEnd (p size : Nat) : Nat := p + (size + unit - 1) / unit * unit

/-- The inputs on which the loop ends with a positive answer. -/
def Accepts (p size : Nat) : Prop :=
  size = 0 ∨ 2 ^ 64 ≤ p + size ∨ strideEnd unit p size < 2 ^ 64 ∧
    ∀ k, k * unit < size → getMonzaOwner unit m (p + k * unit) = owner

/-- The inputs on which it ends with a negative one. A stride that wraps goes on at the
bottom of the address space. -/
def Rejects (p size : Nat) : Prop :=
  0 < size ∧ p + size < 2 ^ 64 ∧ ∃ k, (k * unit < size ∨ 2 ^ 64 ≤ strideEnd unit p size) ∧
    getMonzaOwner unit m (u64 (p + k * unit)) ≠ owner

/-- The stride meets only blocks of the owner and leaves out the last block of the range, which
belongs to another one. -/
def SkipsForeign (p size : Nat) : Prop :=
  0 < size ∧ (∀ k, k * unit < size → getMonzaOwner unit m (p + k * unit) = owner) ∧
    getMonzaOwner unit m (p + size - 1) ≠ owner

/-- Where the check of a range of any length is right: no address wraps and no foreign block is
left out. If an address wraps, the answer is still right for an owned range up to the end of the
address space, and where the loop comes to a foreign block all the same. -/
def CheckRight (p size : Nat) : Prop :=
  strideEnd unit p size < 2 ^ 64 ∧ ¬ SkipsForeign unit m owner p size ∨
    2 ^ 64 ≤ strideEnd unit p size ∧ (Owns unit m owner p size ∧ p + size = 2 ^ 64 ∨
      ¬ Owns unit m owner p size ∧ Rejects unit m owner p (u64 size))

end

/-- An answer is given and it is right. -/
def Decides (r : Result Bool) (Q : Prop) : Prop := ∃ b, r = .ok b ∧ (b = true ↔ Q)

variable {unit : Nat} {m : OwnershipMap} {owner : CompartmentOwner} {p size stop a k : Nat}

theorem ownerVerdict_eq_none : ownerVerdict unit m owner stop a = none ↔
    a < stop ∧ getMonzaOwner unit m a = owner := by
  grind [ownerVerdict]

theorem ownerVerdict_eq_true : ownerVerdict unit m owner stop a = some true ↔ stop ≤ a := by
  grind [ownerVerdict]

theorem ownerVerdict_eq_false : ownerVerdict unit m owner stop a = some false ↔
    a < stop ∧ getMonzaOwner unit m a ≠ owner := by
  grind [ownerVerdict]

theorem u64_add_u64 (a b : Nat) : u64 (u64 a + b) = u64 (a + b) := Nat.mod_add_mod _ _ _

theorem stride_iterate (hp : p < 2 ^ 64) (k : Nat) :
    (fun a => u64 (a + unit))^[k] p = u64 (p + k * unit) := by
  induction k with
  | zero => rw [Function.iterate_zero_apply, Nat.zero_mul, Nat.add_zero, u64_of_lt hp]
  | succ k ih =>
      rw [Function.iterate_succ_apply', ih, u64_add_u64, Nat.add_assoc, Nat.succ_mul]

/-- In 64 bits only so many heads differ. -/
theorem u64_stride_mod : u64 (p + k % 2 ^ 64 * unit) = u64 (p + k * unit) := by
  unfold u64
  rw [Nat.add_mod, Nat.mod_mul_mod, ← Nat.add_mod]

/-- The number of heads inside a range. -/
theorem lt_strides_iff (pos : 0 < unit) : k < (size + unit - 1) / unit ↔ k * unit < size := by
  rw [Nat.lt_iff_add_one_le, Nat.le_div_iff_mul_le pos, Nat.add_mul]
  omega

theorem strides_le (pos : 0 < unit) : (size + unit - 1) / unit ≤ size := by
  refine Nat.le_of_not_lt fun h => ?_
  have := (lt_strides_iff pos).mp h
  have := Nat.le_mul_of_pos_right size pos
  omega

theorem lt_blockLoopBudget (h : k < 2 ^ 64) : k < blockLoopBudget := by
  unfold blockLoopBudget
  omega

theorem le_strideEnd (pos : 0 < unit) : p + size ≤ strideEnd unit p size := by
  have : ¬ (size + unit - 1) / unit * unit < size := by
    rw [← lt_strides_iff pos]
    exact Nat.lt_irrefl _
  unfold strideEnd
  omega

/-- A stride that leaves the address space never meets an address behind the range. -/
theorem stride_lt_of_wrap (dvd : unit ∣ 2 ^ 64) (pos : 0 < size)
    (wraps : 2 ^ 64 ≤ strideEnd unit p size) (k : Nat) : u64 (p + k * unit) < p + size := by
  have hunit : 0 < unit := Nat.pos_of_dvd_of_pos dvd (by decide)
  -- the last head of the range is the highest address of its residue
  obtain ⟨n, hn⟩ : ∃ n, (size + unit - 1) / unit = n + 1 :=
    Nat.exists_eq_succ_of_ne_zero (Nat.pos_iff_ne_zero.mp
      ((lt_strides_iff hunit).mpr (by omega)))
  have hlast : n * unit < size := (lt_strides_iff hunit).mp (by omega)
  rw [strideEnd, hn, Nat.succ_mul] at wraps
  by_contra hge
  have hlt := u64_lt (p + k * unit)
  have hmod : u64 (p + k * unit) % unit = (p + n * unit) % unit := by
    rw [u64, Nat.mod_mod_of_dvd _ dvd, Nat.add_mul_mod_self_right, Nat.add_mul_mod_self_right]
  have := Nat.le_of_dvd (by omega) (Nat.dvd_of_mod_eq_zero (Nat.sub_mod_eq_zero_of_mod_eq hmod))
  omega

section

variable (dvd : unit ∣ 2 ^ 64) (pos : 0 < size) (inside : p + size < 2 ^ 64)

include inside in
theorem u64_stride (hk : k * unit < size) : u64 (p + k * unit) = p + k * unit :=
  u64_of_lt (by omega)

include dvd pos inside

/-- The heads of the loop that lie before the end of the range, one after the other. -/
theorem heads_inside_iff : (∀ j ≤ k, u64 (p + j * unit) < p + size) ↔
    k * unit < size ∨ 2 ^ 64 ≤ strideEnd unit p size := by
  have hunit : 0 < unit := Nat.pos_of_dvd_of_pos dvd (by decide)
  constructor
  · intro heads
    by_contra h
    obtain ⟨hk, hend⟩ := not_or.mp h
    have := heads _ (Nat.le_of_not_lt ((lt_strides_iff hunit).not.mpr hk))
    rw [← strideEnd, u64_of_lt (Nat.lt_of_not_le hend)] at this
    exact Nat.not_lt.mpr (le_strideEnd hunit) this
  · rintro (hk | wraps) j hj
    · have := Nat.mul_le_mul_right unit hj
      rw [u64_stride inside (by omega)]
      omega
    · exact stride_lt_of_wrap dvd pos wraps j

end

variable (dvd : unit ∣ 2 ^ 64) (hp : p < 2 ^ 64) (hsize : size < 2 ^ 64)

include hp hsize in
/-- The end wraps to an address that is not behind the start, so the loop body never runs. -/
theorem validateOwnerRange_of_wrap (h : size = 0 ∨ 2 ^ 64 ≤ p + size) :
    validateOwnerRange unit m owner p size = .ok true := by
  have hstop : u64 (p + size) ≤ p := by
    unfold u64
    omega
  rw [validateOwnerRange, scan_eq_ok_iff]
  exact ⟨0, lt_blockLoopBudget (by decide), fun j hj => absurd hj (Nat.not_lt_zero j),
    ownerVerdict_eq_true.mpr hstop⟩

include dvd hp hsize

theorem validateOwnerRange_eq_true_iff :
    validateOwnerRange unit m owner p size = .ok true ↔ Accepts unit m owner p size := by
  have hunit : 0 < unit := Nat.pos_of_dvd_of_pos dvd (by decide)
  by_cases degenerate : size = 0 ∨ 2 ^ 64 ≤ p + size
  · exact iff_of_true (validateOwnerRange_of_wrap hp hsize degenerate)
      (degenerate.elim Or.inl fun h => Or.inr (Or.inl h))
  obtain ⟨hpos, hin⟩ := not_or.mp degenerate
  have pos : 0 < size := Nat.pos_of_ne_zero hpos
  have inside : p + size < 2 ^ 64 := Nat.lt_of_not_le hin
  rw [validateOwnerRange, scan_eq_ok_iff]
  simp only [stride_iterate hp, ownerVerdict_eq_none, ownerVerdict_eq_true, u64_of_lt inside]
  constructor
  · rintro ⟨k, -, before, last⟩
    have ends : ¬ 2 ^ 64 ≤ strideEnd unit p size := fun wraps =>
      Nat.not_lt.mpr last (stride_lt_of_wrap dvd pos wraps k)
    refine Or.inr (Or.inr ⟨Nat.lt_of_not_le ends, fun j hj => ?_⟩)
    have hjk : j < k := Nat.lt_of_not_le fun hkj =>
      Nat.not_lt.mpr last ((heads_inside_iff dvd pos inside).mpr (Or.inl hj) k hkj)
    rw [← u64_stride inside hj]
    exact (before j hjk).2
  · rintro (h | h | ⟨ends, owned⟩)
    · exact absurd h hpos
    · exact absurd h hin
    · refine ⟨(size + unit - 1) / unit,
        lt_blockLoopBudget (Nat.lt_of_le_of_lt (strides_le hunit) hsize), fun j hj => ?_, ?_⟩
      · have hj := (lt_strides_iff hunit).mp hj
        rw [u64_stride inside hj]
        exact ⟨by omega, owned j hj⟩
      · rw [← strideEnd, u64_of_lt ends]
        exact le_strideEnd hunit

theorem validateOwnerRange_eq_false_iff :
    validateOwnerRange unit m owner p size = .ok false ↔ Rejects unit m owner p size := by
  by_cases degenerate : size = 0 ∨ 2 ^ 64 ≤ p + size
  · rw [validateOwnerRange_of_wrap hp hsize degenerate]
    refine iff_of_false (by simp) fun ⟨hpos, hin, _⟩ => ?_
    omega
  obtain ⟨hpos, hin⟩ := not_or.mp degenerate
  have pos : 0 < size := Nat.pos_of_ne_zero hpos
  have inside : p + size < 2 ^ 64 := Nat.lt_of_not_le hin
  rw [validateOwnerRange, scan_eq_ok_iff]
  simp only [stride_iterate hp, ownerVerdict_eq_none, ownerVerdict_eq_false, u64_of_lt inside]
  constructor
  · rintro ⟨k, -, before, last, foreign⟩
    refine ⟨pos, inside, k, (heads_inside_iff dvd pos inside).mp fun j hj => ?_, foreign⟩
    rcases Nat.lt_or_eq_of_le hj with hlt | rfl
    · exact (before j hlt).1
    · exact last
  · rintro ⟨-, -, k, hk, foreign⟩
    have heads := (heads_inside_iff dvd pos inside).mpr hk
    -- the first foreign block decides, and it is met before the heads repeat
    have found : ∃ j, getMonzaOwner unit m (u64 (p + j * unit)) ≠ owner := ⟨k, foreign⟩
    have early : Nat.find found ≤ k % 2 ^ 64 :=
      Nat.find_min' found (by rwa [u64_stride_mod])
    have least : Nat.find found ≤ k := Nat.le_trans early (Nat.mod_le _ _)
    exact ⟨Nat.find found,
      lt_blockLoopBudget (Nat.lt_of_le_of_lt early (Nat.mod_lt _ (by decide))),
      fun j hj => ⟨heads j (Nat.le_trans (Nat.le_of_lt hj) least),
        not_not.mp (Nat.find_min found hj)⟩,
      heads _ least, Nat.find_spec found⟩

omit dvd hsize in
/-- An owned range is accepted unless the stride leaves the address space. -/
theorem accepts_iff_of_owns (owns : Owns unit m owner p size) :
    Accepts unit m owner p (u64 size) ↔
      size = 0 ∨ p + size = 2 ^ 64 ∨ strideEnd unit p size < 2 ^ 64 := by
  have bound : size = 0 ∨ p + size ≤ 2 ^ 64 := by
    by_contra h
    have := (owns (p + size - 1) (by omega) (by omega)).1
    omega
  by_cases small : size < 2 ^ 64
  · rw [u64_of_lt small, Accepts]
    constructor
    · rintro (h | h | h)
      · exact Or.inl h
      · exact Or.inr (Or.inl (by omega))
      · exact Or.inr (Or.inr h.1)
    · rintro (h | h | h)
      · exact Or.inl h
      · exact Or.inr (Or.inl (Nat.le_of_eq h.symm))
      · exact Or.inr (Or.inr ⟨h, fun k hk => (owns (p + k * unit) (by omega) (by omega)).2⟩)
  · obtain ⟨rfl, rfl⟩ : p = 0 ∧ size = 2 ^ 64 := by omega
    exact iff_of_true (Or.inl (Nat.mod_self _)) (Or.inr (Or.inl (Nat.zero_add _)))

omit hp hsize in
/-- The blocks of a range are those of the stride and that of the last byte. -/
theorem owns_iff_stride (pos : 0 < size) (inside : p + size ≤ 2 ^ 64) :
    Owns unit m owner p size ↔
      (∀ k, k * unit < size → getMonzaOwner unit m (p + k * unit) = owner) ∧
        getMonzaOwner unit m (p + size - 1) = owner := by
  have hunit : 0 < unit := Nat.pos_of_dvd_of_pos dvd (by decide)
  constructor
  · intro owns
    exact ⟨fun k hk => (owns (p + k * unit) (by omega) (by omega)).2,
      (owns (p + size - 1) (by omega) (by omega)).2⟩
  · rintro ⟨heads, last⟩ b start stop
    refine ⟨by omega, ?_⟩
    -- the byte is in the block of the head before it, or in the block behind that one
    have head : (b - p) / unit * unit ≤ b - p := Nat.div_mul_le_self _ _
    have next : b - p < (b - p) / unit * unit + unit := Nat.lt_div_mul_add hunit
    have before := heads ((b - p) / unit) (by omega)
    generalize hk : (b - p) / unit = k at head next before
    have low : (p + k * unit) / unit ≤ b / unit := Nat.div_le_div_right (by omega)
    have high : b / unit ≤ (p + k * unit) / unit + 1 := by
      rw [← Nat.add_div_right _ hunit]
      exact Nat.div_le_div_right (by omega)
    rcases Nat.lt_or_eq_of_le low with less | same
    · have behind : b / unit = (p + k * unit) / unit + 1 := by omega
      by_cases more : (k + 1) * unit < size
      · have after := heads (k + 1) more
        rw [Nat.succ_mul, ← Nat.add_assoc, getMonzaOwner, Nat.add_div_right _ hunit,
          ← behind] at after
        exact after
      · have ends : (p + size - 1) / unit = b / unit := by
          refine Nat.le_antisymm ?_ (Nat.div_le_div_right (by omega))
          rw [behind, ← Nat.add_div_right _ hunit]
          rw [Nat.succ_mul] at more
          exact Nat.div_le_div_right (by omega)
        rw [getMonzaOwner, ends] at last
        exact last
    · rw [getMonzaOwner, same] at before
      exact before

omit dvd hp hsize in
theorem accepts_iff_of_ends (pos : 0 < size) (behind : p + size ≤ strideEnd unit p size)
    (ends : strideEnd unit p size < 2 ^ 64) : Accepts unit m owner p size ↔
      ∀ k, k * unit < size → getMonzaOwner unit m (p + k * unit) = owner := by
  constructor
  · rintro (zero | wraps | ⟨-, heads⟩)
    · omega
    · omega
    · exact heads
  · intro heads
    exact Or.inr (Or.inr ⟨ends, heads⟩)

omit dvd hp hsize in
theorem rejects_iff_of_ends (pos : 0 < size) (behind : p + size ≤ strideEnd unit p size)
    (ends : strideEnd unit p size < 2 ^ 64) : Rejects unit m owner p size ↔
      ¬ ∀ k, k * unit < size → getMonzaOwner unit m (p + k * unit) = owner := by
  have inside : p + size < 2 ^ 64 := Nat.lt_of_le_of_lt behind ends
  constructor
  · rintro ⟨-, -, k, hk, foreign⟩ heads
    have hk := hk.resolve_right (Nat.not_le_of_lt ends)
    rw [u64_stride inside hk] at foreign
    exact foreign (heads k hk)
  · intro heads
    obtain ⟨k, heads⟩ := not_forall.mp heads
    obtain ⟨hk, foreign⟩ := Classical.not_imp.mp heads
    rw [← u64_stride inside hk] at foreign
    exact ⟨pos, inside, k, Or.inl hk, foreign⟩

omit hsize in
theorem validateOwnerRange_decides : Decides (validateOwnerRange unit m owner p (u64 size))
    (Owns unit m owner p size) ↔
      Owns unit m owner p size ∧ Accepts unit m owner p (u64 size) ∨
        ¬ Owns unit m owner p size ∧ Rejects unit m owner p (u64 size) := by
  rw [← validateOwnerRange_eq_true_iff dvd hp (u64_lt size),
    ← validateOwnerRange_eq_false_iff dvd hp (u64_lt size)]
  constructor
  · rintro ⟨b, run, answer⟩
    cases b with
    | true => exact Or.inl ⟨answer.mp rfl, run⟩
    | false => exact Or.inr ⟨fun owns => Bool.false_ne_true (answer.mpr owns), run⟩
  · rintro (⟨owns, run⟩ | ⟨foreign, run⟩)
    · exact ⟨true, run, iff_of_true rfl owns⟩
    · exact ⟨false, run, iff_of_false Bool.false_ne_true foreign⟩

omit hsize in
/-- The length may be any number; the check sees its low 64 bits. -/
theorem validateOwnerRange_decides_iff : Decides (validateOwnerRange unit m owner p (u64 size))
    (Owns unit m owner p size) ↔ CheckRight unit m owner p size := by
  have hunit : 0 < unit := Nat.pos_of_dvd_of_pos dvd (by decide)
  have behind : p + size ≤ strideEnd unit p size := le_strideEnd hunit
  rw [validateOwnerRange_decides dvd hp, CheckRight]
  rcases Nat.lt_or_ge (strideEnd unit p size) (2 ^ 64) with ends | wraps
  · simp only [ends, true_and, Nat.not_le_of_lt ends, false_and, or_false]
    rw [u64_of_lt (by omega)]
    rcases Nat.eq_zero_or_pos size with rfl | pos
    · refine iff_of_true (Or.inl ⟨fun b lo hi => absurd hi (by omega), Or.inl rfl⟩) ?_
      exact fun skips => Nat.lt_irrefl 0 skips.1
    · rw [accepts_iff_of_ends pos behind ends, rejects_iff_of_ends pos behind ends,
        owns_iff_stride dvd pos (by omega), SkipsForeign]
      tauto
  · have positive : size ≠ 0 := by
      rintro rfl
      rw [strideEnd, Nat.zero_add, Nat.div_eq_of_lt (by omega), Nat.zero_mul] at wraps
      omega
    simp only [Nat.not_lt_of_le wraps, false_and, false_or, wraps, true_and]
    refine or_congr (and_congr_right fun owns => ?_) Iff.rfl
    rw [accepts_iff_of_owns hp owns]
    simp only [positive, Nat.not_lt_of_le wraps, false_or, or_false]

end OwnershipMap

theorem minOwnershipSize_dvd (ps : PageSize) {minChunkBits : Nat} (bits : minChunkBits ≤ 64) :
    minOwnershipSize ps minChunkBits ∣ 2 ^ 64 := by
  unfold minOwnershipSize
  rcases Nat.le_total ps.bytes (2 ^ minChunkBits) with h | h
  · rw [Nat.max_eq_right h]
    exact Nat.pow_dvd_pow 2 bits
  · rw [Nat.max_eq_left h]
    cases ps <;> decide

open OwnershipMap

/-- Both checks are right exactly under `CheckRight`, for every map, owner, address and
length in 64 bits. -/
theorem validate_owner_right_iff (ps : PageSize) {minChunkBits : Nat} (bits : minChunkBits ≤ 64)
    (m : OwnershipMap) (owner : CompartmentOwner) {p size : Nat} (hp : p < 2 ^ 64)
    (hsize : size < 2 ^ 64) (sizeT : Nat) :
    (Decides (validateOwnerRange (minOwnershipSize ps minChunkBits) m owner p size)
        (Owns (minOwnershipSize ps minChunkBits) m owner p size) ↔
      CheckRight (minOwnershipSize ps minChunkBits) m owner p size) ∧
    (Decides (validateOwner (minOwnershipSize ps minChunkBits) m owner sizeT p size)
        (Owns (minOwnershipSize ps minChunkBits) m owner p (sizeT * size)) ↔
      CheckRight (minOwnershipSize ps minChunkBits) m owner p (sizeT * size)) := by
  have dvd := minOwnershipSize_dvd ps bits
  constructor
  · rw [← validateOwnerRange_decides_iff dvd hp, u64_of_lt hsize]
  · exact validateOwnerRange_decides_iff dvd hp

/-- The first block belongs to one compartment and the rest to another. -/
def twoOwners : OwnershipMap :=
  ⟨fun b => { owner := if b = 0 then ⟨1⟩ else ⟨2⟩ }, fun _ => {}⟩

/-- A range across two owners, a range that wraps and an array whose size does are all
accepted for the first owner. -/
theorem validate_owner_accepts_foreign_memory :
    (validateOwnerRange (minOwnershipSize .kib4 14) twoOwners ⟨1⟩ 0x3fff 2 = .ok true ∧
      ¬ Owns (minOwnershipSize .kib4 14) twoOwners ⟨1⟩ 0x3fff 2) ∧
    (validateOwnerRange (minOwnershipSize .kib4 14) twoOwners ⟨1⟩ 0x1000 (2 ^ 64 - 1) = .ok true ∧
      ¬ Owns (minOwnershipSize .kib4 14) twoOwners ⟨1⟩ 0x1000 (2 ^ 64 - 1)) ∧
    (validateOwner (minOwnershipSize .kib4 14) twoOwners ⟨1⟩ 16 0x1000 (2 ^ 60) = .ok true ∧
      ¬ Owns (minOwnershipSize .kib4 14) twoOwners ⟨1⟩ 0x1000 (16 * 2 ^ 60)) := by
  refine ⟨⟨by decide +kernel, fun owns => ?_⟩, ⟨by decide +kernel, fun owns => ?_⟩,
    ⟨by decide +kernel, fun owns => ?_⟩⟩
  · exact absurd (owns 0x4000 (by decide) (by decide)).2 (by decide)
  · exact absurd (owns 0x4000 (by decide) (by decide)).2 (by decide)
  · exact absurd (owns 0x4000 (by decide) (by decide)).2 (by decide)

/-- A range inside one block is checked correctly. -/
theorem validate_owner_right_one_block :
    Decides (validateOwnerRange (minOwnershipSize .kib4 14) twoOwners ⟨1⟩ 0x1000 0x1000)
      (Owns (minOwnershipSize .kib4 14) twoOwners ⟨1⟩ 0x1000 0x1000) := by
  refine (validate_owner_right_iff .kib4 (by decide) twoOwners ⟨1⟩ (by decide) (by decide) 1).1.mpr
    (Or.inl ⟨by decide, ?_⟩)
  rintro ⟨-, -, foreign⟩
  exact foreign (by decide)

end Monza
