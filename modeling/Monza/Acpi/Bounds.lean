import Monza.Acpi.Tables

/-!
# Reading inside the tables

A table has its fixed part and as many bytes as its header declares. The checks of signature and
checksum do not relate the two: a header may declare less than the fixed part, and then the
subtraction that gives the size of the rest wraps. The last entry of the MADT may be cut off by
the end of the table.

The log of a parse shows all that was read, whether the parse ended or not.
-/

namespace Monza.Acpi

open Outcome

/-- An access stays below a bound, if it is to the given table. -/
def Inside (table bound : Nat) : Access → Prop
  | .read t offset => t = table → offset < bound
  | .visit _ _ => True

/-- The index of a pointer of the given table. -/
def pointerIndex (table : Nat) : Access → Option Nat
  | .read _ _ => none
  | .visit t index => if t = table then some index else none

variable {memory : Memory} {table size offset fuel : Nat} {access : Access}

theorem inside_reads {bytes : List Nat} {bound : Nat} (small : ∀ b ∈ bytes, b < bound) :
    (reads table bytes).All (Inside table bound) := by
  intro access reading
  obtain ⟨b, hb, rfl⟩ := List.mem_map.mp reading
  exact fun _ => small b hb

theorem lt_of_mem_fixedBytes {fields : List Nat} {fixed b : Nat} (header : sizeofHeader ≤ fixed)
    (own : ∀ b ∈ fields, b < fixed) (hb : b ∈ fixedBytes memory table fields) :
    b < max fixed (declaredLength memory table) := by
  have above : ∀ b, b < fixed → b < max fixed (declaredLength memory table) :=
    fun b hb => Nat.lt_of_lt_of_le hb (Nat.le_max_left _ _)
  have length : ∀ b ∈ List.range' 4 4, b < fixed := by
    intro b hb
    have := List.mem_range'_1.mp hb
    rw [sizeofHeader] at header
    omega
  rw [fixedBytes, List.mem_append, List.mem_append, List.mem_append] at hb
  rcases hb with hb | hb | hb | hb
  · exact above b (length b hb)
  · exact Nat.lt_of_lt_of_le (List.mem_range.mp hb) (Nat.le_max_right _ _)
  · exact above b (own b hb)
  · exact above b (length b hb)

/-! ## What the traversals read -/

section Traversal

variable {σ : Type} {op : Nat → σ → Parse σ} {s : σ}

theorem mem_log_reads {α : Type} {bytes : List Nat} {m : Parse α} :
    access ∈ (reads table bytes >>= fun _ => m).log ↔
      (∃ b ∈ bytes, access = .read table b) ∨ access ∈ m.log := by
  rw [Logged.mem_log_bind]
  simp [reads, Logged.tell, eq_comm]

/-- The bytes of an entry that an iteration reads, next to those of its operation. -/
theorem mem_log_iterate : access ∈ (iterate memory table op s offset).log ↔
    (access = .read table (sizeofMadt + offset) ∨
      access = .read table (sizeofMadt + offset + 1)) ∨
    isLogicalProcessor memory table offset = true ∧
      access ∈ (op (sizeofMadt + offset) s).log := by
  have last : ∀ t : σ, access ∈ (readByte memory table (sizeofMadt + offset + 1) >>= fun _ =>
      (pure t : Parse σ)).log ↔ access = .read table (sizeofMadt + offset + 1) := by
    intro t
    rw [readByte_bind, mem_log_reads]
    simp
  rw [iterate, visitEntry_eq, bind_assoc, mem_log_reads, filterBytes]
  by_cases processor : isLogicalProcessor memory table offset = true
  · have type : typeAt memory table offset = 0#8 := by
      rw [isLogicalProcessor, Bool.and_eq_true, decide_eq_true_eq] at processor
      exact processor.1
    rw [if_pos processor, if_pos type, Logged.mem_log_bind]
    simp only [last, List.mem_cons, List.not_mem_nil, or_false, processor, true_and]
    constructor
    · rintro (⟨b, rfl | rfl, rfl⟩ | inner | ⟨_, _, rfl⟩)
      · exact .inl (.inl rfl)
      · exact .inl (.inr rfl)
      · exact .inr inner
      · exact .inl (.inr rfl)
    · rintro ((rfl | rfl) | inner)
      · exact .inl ⟨_, .inl rfl, rfl⟩
      · exact .inl ⟨_, .inr rfl, rfl⟩
      · exact .inr (.inl inner)
  · rw [if_neg processor, pure_bind, last]
    split <;> simp [processor]

theorem mem_log_traverse :
    access ∈ (traverseLogicalProcessors memory table size op fuel offset s).log ↔ access ∈
      ((offsets memory table size fuel offset).foldlM (iterate memory table op) s).log := by
  rw [traverseLogicalProcessors_eq, Logged.mem_log_bind]
  refine or_iff_left ?_
  rintro ⟨t, -, writes⟩
  split at writes
  · cases writes
  · cases writes

theorem mem_log_count :
    access ∈ (traverseLogicalProcessors memory table size countCore fuel 0 0).log ↔
    ∃ o ∈ offsets memory table size fuel 0,
      access = .read table (sizeofMadt + o) ∨ access = .read table (sizeofMadt + o + 1) := by
  rw [mem_log_traverse]
  refine Logged.mem_log_foldlM (fun numCores o => ?_) result_count
  rw [mem_log_iterate]
  refine or_iff_left ?_
  rintro ⟨-, writes⟩
  cases writes

theorem mem_log_storeApicId {numCores entry : Nat} {apicIds : List (BitVec 8)} :
    access ∈ (storeApicId memory table numCores entry apicIds).log ↔
      access = .read table (entry + 3) := by
  rw [storeApicId, readByte_bind, mem_log_reads]
  split <;> simp

/-- The second traversal, behind the check of the number. -/
theorem mem_log_store {numCores : Nat}
    (count : (processors memory table (offsets memory table size fuel 0)).length = numCores) :
    access ∈ (traverseLogicalProcessors memory table size (storeApicId memory table numCores)
      fuel 0 []).log ↔
    ∃ o ∈ offsets memory table size fuel 0,
      (access = .read table (sizeofMadt + o) ∨ access = .read table (sizeofMadt + o + 1)) ∨
      isLogicalProcessor memory table o = true ∧ access = .read table (sizeofMadt + o + 3) := by
  have room : ([] : List (BitVec 8)).length +
      (processors memory table (offsets memory table size fuel 0)).length ≤ numCores := by
    rw [count]
    exact Nat.le_of_eq (Nat.zero_add numCores)
  rw [mem_log_traverse]
  refine Logged.mem_log_foldlM (fun apicIds o => ?_) (result_store room)
  rw [mem_log_iterate, mem_log_storeApicId]

theorem processors_pos {entries : List Nat} (member : offset ∈ entries)
    (processor : isLogicalProcessor memory table offset = true) :
    (processors memory table entries).length ≠ 0 := by
  have : offset ∈ processors memory table entries := List.mem_filter.mpr ⟨member, processor⟩
  exact Nat.ne_of_gt (List.length_pos_of_mem this)

/-- All that is read of the entries. The identifiers are read only after the number of processors
has passed its check. -/
theorem mem_log_setupCores {localApicAddress : Nat} :
    access ∈ (setupCores memory table localApicAddress size fuel).log ↔
    ∃ o ∈ offsets memory table size fuel 0,
      (access = .read table (sizeofMadt + o) ∨ access = .read table (sizeofMadt + o + 1)) ∨
      (isLogicalProcessor memory table o = true ∧ access = .read table (sizeofMadt + o + 3)) ∧
        ended memory table size fuel 0 = true ∧
        (processors memory table (offsets memory table size fuel 0)).length ≤ maxCoreCount := by
  rw [setupCores, Logged.mem_log_bind, mem_log_count, result_traverse_count]
  constructor
  · rintro (⟨o, ho, byte⟩ | ⟨numCores, run, inner⟩)
    · exact ⟨o, ho, .inl byte⟩
    · split at run
      next done =>
        have count := Except.ok.inj run
        split at inner
        · cases inner
        next few =>
          rcases Logged.mem_log_bind.mp inner with inner | ⟨_, _, none⟩
          · obtain ⟨o, ho, byte | processor⟩ := (mem_log_store count).mp inner
            · exact ⟨o, ho, .inl byte⟩
            · exact ⟨o, ho, .inr ⟨processor, done, by omega⟩⟩
          · cases none
      next => cases run
  · rintro ⟨o, ho, byte | ⟨processor, done, few⟩⟩
    · exact .inl ⟨o, ho, byte⟩
    · have some := processors_pos ho processor.1
      refine .inr ⟨_, if_pos done, ?_⟩
      rw [if_neg (by omega)]
      exact Logged.mem_log_bind.mpr (.inl ((mem_log_store rfl).mpr ⟨o, ho, .inr processor⟩))

end Traversal

/-! ## The entries of the MADT -/

section Entries

theorem wordAt_lt {address width : Nat} : wordAt memory address width < 256 ^ width := by
  induction width generalizing address with
  | zero => exact Nat.one_pos
  | succ width ih =>
      have low := (memory (u64 address)).isLt
      have high := @ih (address + 1)
      rw [wordAt, Nat.pow_succ]
      omega

theorem declaredLength_lt : declaredLength memory table < 2 ^ 32 := wordAt_lt

theorem offsets_mono {more : Nat} (le : fuel ≤ more) :
    offsets memory table size fuel offset ⊆ offsets memory table size more offset := by
  induction fuel generalizing offset more with
  | zero => exact List.nil_subset _
  | succ fuel ih =>
      obtain ⟨more, rfl⟩ := Nat.exists_eq_succ_of_ne_zero (Nat.ne_zero_of_lt le)
      rw [offsets, offsets]
      split
      next => exact List.cons_subset_cons _ (ih (Nat.le_of_succ_le_succ le))
      next => exact List.nil_subset _

/-- A walk that is over has no further offsets. -/
theorem offsets_of_ended {more : Nat} (done : ended memory table size fuel offset = true)
    (le : fuel ≤ more) :
    offsets memory table size more offset = offsets memory table size fuel offset := by
  induction fuel generalizing offset more with
  | zero => cases done
  | succ fuel ih =>
      obtain ⟨more, rfl⟩ := Nat.exists_eq_succ_of_ne_zero (Nat.ne_zero_of_lt le)
      rw [offsets, offsets]
      split
      next inside =>
        rw [ended, if_pos inside] at done
        rw [ih done (Nat.le_of_succ_le_succ le)]
      next => rfl

theorem offsets_eq_of_ended {other : Nat} (done : ended memory table size fuel offset = true)
    (done' : ended memory table size other offset = true) :
    offsets memory table size fuel offset = offsets memory table size other offset := by
  rcases Nat.le_total fuel other with le | le
  · exact (offsets_of_ended done le).symm
  · exact offsets_of_ended done' le

theorem iterate_of_mem {o : Nat} (member : o ∈ offsets memory table size fuel offset) :
    ∃ n, (nextOffset memory table)^[n] offset = o := by
  induction fuel generalizing offset with
  | zero => cases member
  | succ fuel ih =>
      rw [offsets] at member
      split at member
      next =>
        rcases List.mem_cons.mp member with rfl | member
        · exact ⟨0, rfl⟩
        · obtain ⟨n, reached⟩ := ih member
          exact ⟨n + 1, reached⟩
      next => cases member

theorem lt_of_mem_offsets {o : Nat} (member : o ∈ offsets memory table size fuel offset) :
    o < size := by
  induction fuel generalizing offset with
  | zero => cases member
  | succ fuel ih =>
      rw [offsets] at member
      split at member
      next inside =>
        rcases List.mem_cons.mp member with rfl | member
        · exact inside
        · exact ih member
      next => cases member

/-- The number of processors that a whole walk finds. -/
def coreCount (memory : Memory) (table size : Nat) : Nat :=
  (processors memory table (offsets memory table size (size + 1) 0)).length

/-- What keeps the reading of entries inside: there is room for them, no entry is cut off before
its length, and that of a processor is not cut off before its identifier, unless there are too
many processors to read any identifier. -/
def EntriesInside (memory : Memory) (table : Nat) : Prop :=
  sizeofMadt ≤ declaredLength memory table ∧
  ∀ o, Visited memory table (declaredLength memory table - sizeofMadt) o →
    sizeofMadt + o + 1 < declaredLength memory table ∧
    (isLogicalProcessor memory table o = true →
      sizeofMadt + o + 3 < declaredLength memory table ∨
      maxCoreCount < coreCount memory table (declaredLength memory table - sizeofMadt))

/-- A processor that the table cuts off is its last entry. -/
theorem ended_of_cut {o : Nat} (word : size + 255 ≤ 2 ^ 64) (visited : Visited memory table size o)
    (processor : isLogicalProcessor memory table o = true) (cut : size ≤ o + 8) :
    ended memory table size (size + 1) 0 = true := by
  obtain ⟨fuel, member⟩ := visited
  obtain ⟨n, reached⟩ := iterate_of_mem member
  have inside := lt_of_mem_offsets member
  have long : 8 ≤ lengthAt memory table o := by
    rw [isLogicalProcessor, Bool.and_eq_true, decide_eq_true_eq, decide_eq_true_eq] at processor
    exact processor.2
  have short := lengthAt_lt memory table o
  have leaves : size ≤ (nextOffset memory table)^[n + 1] 0 := by
    rw [Function.iterate_succ_apply', reached, nextOffset, u64_of_lt (by omega)]
    omega
  exact ended_of_leaves leaves

theorem mem_offsets_of_ended {o : Nat} (visited : Visited memory table size o)
    (done : ended memory table size fuel 0 = true) : o ∈ offsets memory table size fuel 0 := by
  obtain ⟨other, member⟩ := visited
  rcases Nat.le_total other fuel with le | le
  · exact offsets_mono le member
  · rw [← offsets_of_ended done le]
    exact member

/-- Every byte that `parse_madt` reads of its table is in the table. -/
def MadtInside (memory : Memory) (table : Nat) : Prop :=
  ∀ fuel, (parseMadt memory table fuel).All
    (Inside table (max sizeofMadt (declaredLength memory table)))

theorem mem_log_of_setup (valid : ChecksumOk memory table)
    (member : access ∈ (setupCores memory table (wordAt memory (table + 36) 4)
      (sub64 (declaredLength memory table) sizeofMadt) fuel).log) :
    access ∈ (parseMadt memory table fuel).log := by
  rw [parseMadt_of_valid valid, mem_log_reads]
  exact .inr member

/-- Too short a length has the first entry behind the table. -/
theorem le_of_madtInside (valid : ChecksumOk memory table) (inside : MadtInside memory table) :
    sizeofMadt ≤ declaredLength memory table := by
  by_contra short
  have large : 0 < sub64 (declaredLength memory table) sizeofMadt := by
    unfold sub64 u64 sizeofMadt at *
    omega
  have first : Access.read table (sizeofMadt + 0) ∈ (parseMadt memory table 1).log := by
    apply mem_log_of_setup valid
    rw [mem_log_setupCores]
    refine ⟨0, ?_, .inl (.inl rfl)⟩
    rw [offsets_of_lt large]
    exact List.mem_cons_self
  have outside : sizeofMadt + 0 < max sizeofMadt (declaredLength memory table) :=
    inside 1 _ first rfl
  omega

theorem entriesInside_of_madtInside (valid : ChecksumOk memory table)
    (inside : MadtInside memory table) : EntriesInside memory table := by
  have room := le_of_madtInside valid inside
  have bound : max sizeofMadt (declaredLength memory table) = declaredLength memory table :=
    Nat.max_eq_right room
  have small := @declaredLength_lt memory table
  have size := sub64_of_le (Nat.lt_trans small (by decide)) room
  -- what an iteration reads is in the log of a run with its fuel
  have below : ∀ fuel byte, Access.read table byte ∈ (setupCores memory table
      (wordAt memory (table + 36) 4) (declaredLength memory table - sizeofMadt) fuel).log →
      byte < declaredLength memory table := by
    intro fuel byte member
    rw [← size] at member
    exact bound ▸ inside fuel _ (mem_log_of_setup valid member) rfl
  refine ⟨room, fun o visited => ⟨?_, fun processor => ?_⟩⟩
  · obtain ⟨fuel, member⟩ := visited
    exact below fuel _ (mem_log_setupCores.mpr ⟨o, member, .inl (.inr rfl)⟩)
  · by_contra cut
    have done := ended_of_cut (by omega) visited processor (by omega)
    have few : coreCount memory table (declaredLength memory table - sizeofMadt) ≤
        maxCoreCount := by omega
    have member := mem_offsets_of_ended visited done
    have := below _ _ (mem_log_setupCores.mpr ⟨o, member, .inr ⟨⟨processor, rfl⟩, done, few⟩⟩)
    omega

theorem madtInside_of_entriesInside (valid : ChecksumOk memory table)
    (entries : EntriesInside memory table) : MadtInside memory table := by
  obtain ⟨room, entries⟩ := entries
  have bound : max sizeofMadt (declaredLength memory table) = declaredLength memory table :=
    Nat.max_eq_right room
  have small := @declaredLength_lt memory table
  have size := sub64_of_le (Nat.lt_trans small (by decide)) room
  have fields : ∀ b ∈ List.range' 36 4, b < sizeofMadt := by decide
  intro fuel
  rw [parseMadt_of_valid valid, size]
  refine (inside_reads fun b hb => lt_of_mem_fixedBytes (by decide) fields hb).bind fun _ _ => ?_
  rw [bound]
  intro access member
  obtain ⟨o, ho, (rfl | rfl) | ⟨⟨processor, rfl⟩, done, few⟩⟩ := mem_log_setupCores.mp member
  · intro _
    exact Nat.lt_of_succ_lt (entries o ⟨fuel, ho⟩).1
  · intro _
    exact (entries o ⟨fuel, ho⟩).1
  · intro _
    rcases (entries o ⟨fuel, ho⟩).2 processor with inside | many
    · exact inside
    · -- the whole walk finds as many processors as this one, which is over
      have finished := ended_of_leaves (exists_ended_iff.mp ⟨fuel, done⟩).choose_spec
      rw [coreCount, offsets_eq_of_ended finished done] at many
      omega

theorem madtInside_iff (valid : ChecksumOk memory table) :
    MadtInside memory table ↔ EntriesInside memory table :=
  ⟨entriesInside_of_madtInside valid, madtInside_of_entriesInside valid⟩

end Entries

/-! ## The pointers of the root tables -/

section Root

variable {expected width : Nat} {s : CoreSetup}

/-- One iteration over the pointers. -/
def visitPointer (memory : Memory) (fuel width table : Nat) (s : CoreSetup) (entryIndex : Nat) :
    Parse CoreSetup := do
  Logged.tell [.visit table entryIndex]
  let pointer ← readWord memory table (sizeofHeader + width * entryIndex) width
  parseEntry memory fuel pointer s

theorem parseRoot_of_valid (signature : wordAt memory table 4 = expected)
    (valid : ChecksumOk memory table) :
    parseRoot memory fuel expected width table s =
      (reads table (List.range' 0 4 ++ fixedBytes memory table []) >>= fun _ =>
        (List.range (sub64 (declaredLength memory table) sizeofHeader / width)).foldlM
          (visitPointer memory fuel width table) s) := by
  rw [parseRoot, readWord_bind]
  change (_ >>= fun _ => if wordAt memory table 4 ≠ expected then _ else
    readWord memory table 4 4 >>= fun length => verifyChecksum memory table length >>= _) = _
  rw [if_neg (not_not.mpr signature), readWord_bind]
  change (_ >>= fun _ => _ >>= fun _ =>
    verifyChecksum memory table (declaredLength memory table) >>= _) = _
  rw [verifyChecksum_bind valid]
  simp only [Bool.not_true, Bool.false_eq_true, if_false, readWord_bind, reads_bind]
  rfl

/-- A parse of a MADT reads this table and no other. -/
theorem parseMadt_reads : (parseMadt memory table fuel).All fun access =>
    ∃ offset, access = .read table offset := by
  have word : ∀ offset, (readWord memory table offset 4).All fun access =>
      ∃ offset, access = .read table offset := by
    intro offset access member
    obtain ⟨b, -, rfl⟩ := List.mem_map.mp member
    exact ⟨b, rfl⟩
  rw [parseMadt]
  refine (word 4).bind fun length _ => .bind ?_ fun valid _ => ?_
  · intro access member
    obtain ⟨b, -, rfl⟩ := List.mem_map.mp member
    exact ⟨b, rfl⟩
  · cases valid with
    | false => exact .fail _
    | true =>
        refine (word 36).bind fun _ _ => (word 4).bind fun length _ => ?_
        intro access member
        obtain ⟨o, -, (rfl | rfl) | ⟨⟨-, rfl⟩, -⟩⟩ := mem_log_setupCores.mp member
        · exact ⟨_, rfl⟩
        · exact ⟨_, rfl⟩
        · exact ⟨_, rfl⟩

/-- A pointer leads to the header of a table, and to more of it only if it is a MADT. -/
theorem parseEntry_reads {pointer : Nat} : (parseEntry memory fuel pointer s).All fun access =>
    ∃ offset, access = .read pointer offset ∧
      (offset < 4 ∨ wordAt memory pointer 4 = madtSignature) := by
  rw [parseEntry]
  split
  next => exact .pure s
  next =>
    refine .bind ?_ fun signature read => ?_
    · intro access member
      obtain ⟨b, small, rfl⟩ := List.mem_map.mp member
      have := List.mem_range'_1.mp small
      exact ⟨b, rfl, .inl (by omega)⟩
    · have read : wordAt memory pointer 4 = signature := Except.ok.inj read
      split
      next same =>
        intro access member
        obtain ⟨offset, rfl⟩ := parseMadt_reads access member
        exact ⟨offset, rfl, .inr (read.trans same)⟩
      next => exact .pure s

/-- A parse of a root table stays inside it, and comes to the pointers that the table has room
for, all of them if it returns. -/
structure PointersInside (memory : Memory) (table width : Nat) (run : Parse CoreSetup) : Prop where
  inside : run.All (Inside table (max sizeofHeader (declaredLength memory table)))
  pointers : run.log.filterMap (pointerIndex table) <+:
    List.range ((declaredLength memory table - sizeofHeader) / width)
  all : ∀ t, run.result = .ok t → run.log.filterMap (pointerIndex table) =
    List.range ((declaredLength memory table - sizeofHeader) / width)

theorem pointerIndex_reads {log : List Access} {pointer : Nat}
    (reading : ∀ access ∈ log, ∃ offset, access = .read pointer offset) :
    log.filterMap (pointerIndex table) = [] := by
  rw [List.filterMap_eq_nil_iff]
  intro access member
  obtain ⟨offset, rfl⟩ := reading access member
  rfl

theorem pointerIndex_visitPointer {index : Nat} :
    (visitPointer memory fuel width table s index).log.filterMap (pointerIndex table) =
      [index] := by
  have word : (readWord memory table (sizeofHeader + width * index) width).log.filterMap
      (pointerIndex table) = [] := by
    apply pointerIndex_reads
    intro access member
    obtain ⟨b, -, rfl⟩ := List.mem_map.mp member
    exact ⟨b, rfl⟩
  have entry : ∀ pointer, (parseEntry memory fuel pointer s).log.filterMap (pointerIndex table) =
      [] := by
    intro pointer
    apply pointerIndex_reads
    intro access member
    obtain ⟨offset, rfl, -⟩ := parseEntry_reads access member
    exact ⟨offset, rfl⟩
  change List.filterMap (pointerIndex table) ([.visit table index] ++ (_ ++ _)) = [index]
  rw [List.filterMap_append, List.filterMap_append, word, entry]
  simp [pointerIndex]

theorem inside_visitPointer {index bound : Nat} (signature : wordAt memory table 4 ≠ madtSignature)
    (header : sizeofHeader ≤ bound) (room : sizeofHeader + width * index + width ≤ bound) :
    (visitPointer memory fuel width table s index).All (Inside table bound) := by
  refine .bind ?_ fun _ _ => .bind ?_ fun pointer _ => ?_
  · intro access member
    rw [List.mem_singleton.mp member]
    trivial
  · intro access member
    obtain ⟨b, small, rfl⟩ := List.mem_map.mp member
    have := List.mem_range'_1.mp small
    exact fun _ => by omega
  · intro access member
    obtain ⟨offset, rfl, small | madt⟩ := parseEntry_reads access member
    · intro _
      rw [sizeofHeader] at header
      omega
    · intro same
      rw [same] at madt
      exact absurd madt signature

theorem mem_fixed_lt : ∀ b ∈ List.range' 0 4 ++ fixedBytes memory table [],
    b < max sizeofHeader (declaredLength memory table) := by
  intro b hb
  rcases List.mem_append.mp hb with hb | hb
  · have := List.mem_range'_1.mp hb
    have := Nat.le_max_left sizeofHeader (declaredLength memory table)
    rw [sizeofHeader] at this ⊢
    omega
  · exact lt_of_mem_fixedBytes (Nat.le_refl _) (fun b hb => absurd hb List.not_mem_nil) hb

theorem pointersInside_of_le (signature : wordAt memory table 4 = expected)
    (other : expected ≠ madtSignature) (valid : ChecksumOk memory table)
    (room : sizeofHeader ≤ declaredLength memory table) :
    PointersInside memory table width (parseRoot memory fuel expected width table s) := by
  have word : declaredLength memory table < 2 ^ 64 := Nat.lt_trans declaredLength_lt (by decide)
  have marks := Logged.filterMap_log_foldlM (l := List.range
    ((declaredLength memory table - sizeofHeader) / width))
    (fun s index => @pointerIndex_visitPointer memory table fuel width s index) s
  have fixed : ∀ log : List Access,
      ((List.range' 0 4 ++ fixedBytes memory table []).map (Access.read table) ++ log).filterMap
        (pointerIndex table) = log.filterMap (pointerIndex table) := by
    intro log
    rw [List.filterMap_append, pointerIndex_reads, List.nil_append]
    intro access member
    obtain ⟨b, -, rfl⟩ := List.mem_map.mp member
    exact ⟨b, rfl⟩
  rw [parseRoot_of_valid signature valid, sub64_of_le word room]
  refine ⟨?_, (fixed _).symm ▸ marks.1, fun t run => (fixed _).trans (marks.2 t run)⟩
  refine (inside_reads mem_fixed_lt).bind fun _ _ => Logged.All.foldlM ?_ s
  intro index hi s
  apply inside_visitPointer (signature ▸ other) (Nat.le_max_left _ _)
  have last : width * (index + 1) ≤ declaredLength memory table - sizeofHeader :=
    Nat.le_trans (Nat.mul_le_mul_left _ (List.mem_range.mp hi)) (Nat.mul_div_le _ _)
  rw [Nat.mul_succ] at last
  have := Nat.le_max_right sizeofHeader (declaredLength memory table)
  omega

/-- Too short a length makes room for pointers up to the end of the address space. -/
theorem mem_log_of_short (signature : wordAt memory table 4 = expected)
    (valid : ChecksumOk memory table) (short : declaredLength memory table < sizeofHeader)
    (positive : 0 < width) (small : width ≤ 8) :
    .visit table 0 ∈ (parseRoot memory fuel expected width table s).log ∧
      .read table sizeofHeader ∈ (parseRoot memory fuel expected width table s).log := by
  have large : 8 ≤ sub64 (declaredLength memory table) sizeofHeader := by
    unfold sub64 u64 sizeofHeader at *
    omega
  obtain ⟨n, more⟩ := Nat.exists_eq_succ_of_ne_zero
    (Nat.ne_of_gt (Nat.div_pos (Nat.le_trans small large) positive))
  have first : ∀ access ∈ (visitPointer memory fuel width table s 0).log,
      access ∈ (parseRoot memory fuel expected width table s).log := by
    intro access member
    rw [parseRoot_of_valid signature valid, mem_log_reads, more, List.range_succ_eq_map,
      List.foldlM_cons, Logged.mem_log_bind]
    exact .inr (.inl member)
  refine ⟨first _ List.mem_cons_self, first _ ?_⟩
  refine Logged.mem_log_bind.mpr (.inr ⟨(), rfl, Logged.mem_log_bind.mpr (.inl ?_)⟩)
  exact List.mem_map.mpr ⟨sizeofHeader, List.mem_range'_1.mpr (by omega), rfl⟩

theorem pointersInside_iff (signature : wordAt memory table 4 = expected)
    (other : expected ≠ madtSignature) (valid : ChecksumOk memory table) (positive : 0 < width)
    (small : width ≤ 8) :
    PointersInside memory table width (parseRoot memory fuel expected width table s) ↔
      sizeofHeader ≤ declaredLength memory table := by
  refine ⟨fun run => ?_, pointersInside_of_le signature other valid⟩
  by_contra short
  have short := Nat.lt_of_not_le short
  have outside : sizeofHeader < max sizeofHeader (declaredLength memory table) :=
    run.inside _ (mem_log_of_short signature valid short positive small).2 rfl
  omega

end Root

/-- A root table is read inside its bounds exactly if its header declares at least the header, and
a MADT exactly if there is room for what is read of each of its entries. -/
theorem acpi_reads_inside_iff (memory : Memory) (table fuel : Nat) (s : CoreSetup)
    (valid : ChecksumOk memory table) :
    (wordAt memory table 4 = rsdtSignature →
      (PointersInside memory table 4 (parseRsdt memory fuel table s) ↔
        sizeofHeader ≤ declaredLength memory table)) ∧
    (wordAt memory table 4 = xsdtSignature →
      (PointersInside memory table 8 (parseXsdt memory fuel table s) ↔
        sizeofHeader ≤ declaredLength memory table)) ∧
    (wordAt memory table 4 = madtSignature →
      (MadtInside memory table ↔ EntriesInside memory table)) := by
  refine ⟨fun signature => ?_, fun signature => ?_, fun _ => madtInside_iff valid⟩
  · exact pointersInside_iff signature (by decide) valid (by decide) (by decide)
  · exact pointersInside_iff signature (by decide) valid (by decide) (by decide)

/-- A root table at an address, with the given length, checksum and first pointer. -/
def rsdtImage (base : Nat) (length checksum : BitVec 8) : Memory :=
  fun address => [0x52, 0x53, 0x44, 0x54, length, 0, 0, 0, 0, checksum].getD (address - base) 0

/-- A root table with one null pointer, and a table with one processor. -/
theorem acpi_reads_inside_iff_one_core :
    PointersInside (rsdtImage 0x1000 40 155) 0x1000 4
      (parseRsdt (rsdtImage 0x1000 40 155) 9 0x1000 ⟨0, 0, []⟩) ∧
    MadtInside (madtImage 0x1000 52 159 [0, 8, 0, 7, 1, 0, 0, 0]) 0x1000 := by
  have valid : ChecksumOk (rsdtImage 0x1000 40 155) 0x1000 := by
    rw [ChecksumOk]
    decide +kernel
  have valid' : ChecksumOk (madtImage 0x1000 52 159 [0, 8, 0, 7, 1, 0, 0, 0]) 0x1000 := by
    rw [ChecksumOk]
    decide +kernel
  constructor
  · apply ((acpi_reads_inside_iff _ _ _ _ valid).1 (by decide +kernel)).mpr
    decide +kernel
  · apply ((acpi_reads_inside_iff _ _ 9 ⟨0, 0, []⟩ valid').2.2 (by decide +kernel)).mpr
    refine ⟨by decide +kernel, fun o visited => ?_⟩
    have entry : o ∈ offsets _ _ _ 2 0 := mem_offsets_of_ended visited (by decide +kernel)
    have only : offsets (madtImage 0x1000 52 159 [0, 8, 0, 7, 1, 0, 0, 0]) 0x1000
        (declaredLength (madtImage 0x1000 52 159 [0, 8, 0, 7, 1, 0, 0, 0]) 0x1000 - sizeofMadt)
        2 0 = [0] := by decide +kernel
    rw [only, List.mem_singleton] at entry
    subst entry
    decide +kernel

/-- A root table of length zero has a valid checksum, and its first pointer is read from behind it.
So is the length of an entry of which only the type is in the table. -/
theorem acpi_reads_outside :
    (wordAt (rsdtImage 0x1000 0 0) 0x1000 4 = rsdtSignature ∧
      ChecksumOk (rsdtImage 0x1000 0 0) 0x1000 ∧
      declaredLength (rsdtImage 0x1000 0 0) 0x1000 = 0 ∧
      ∀ fuel, .visit 0x1000 0 ∈ (parseRsdt (rsdtImage 0x1000 0 0) fuel 0x1000 ⟨0, 0, []⟩).log ∧
        .read 0x1000 36 ∈ (parseRsdt (rsdtImage 0x1000 0 0) fuel 0x1000 ⟨0, 0, []⟩).log) ∧
    (wordAt (madtImage 0x1000 45 182 [0]) 0x1000 4 = madtSignature ∧
      ChecksumOk (madtImage 0x1000 45 182 [0]) 0x1000 ∧
      declaredLength (madtImage 0x1000 45 182 [0]) 0x1000 = 45 ∧
      .read 0x1000 45 ∈ (parseMadt (madtImage 0x1000 45 182 [0]) 0x1000 1).log) := by
  have signature : wordAt (rsdtImage 0x1000 0 0) 0x1000 4 = rsdtSignature := by decide +kernel
  have valid : ChecksumOk (rsdtImage 0x1000 0 0) 0x1000 := by
    rw [ChecksumOk]
    decide +kernel
  have valid' : ChecksumOk (madtImage 0x1000 45 182 [0]) 0x1000 := by
    rw [ChecksumOk]
    decide +kernel
  have short : declaredLength (rsdtImage 0x1000 0 0) 0x1000 = 0 := by decide +kernel
  refine ⟨⟨signature, valid, short, fun fuel => ?_⟩,
    by decide +kernel, valid', by decide +kernel, ?_⟩
  · exact mem_log_of_short signature valid (by decide +kernel) (by decide) (by decide)
  · apply mem_log_of_setup valid'
    exact mem_log_setupCores.mpr ⟨0, by decide +kernel, .inl (.inr rfl)⟩

end Monza.Acpi
