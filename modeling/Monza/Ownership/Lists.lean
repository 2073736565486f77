import Monza.Ownership.Pagemap
import Monza.Lib.Ring
import Monza.Lib.Transition

/-!
# The lists of the ownership pagemap

The entries of the pagemap and the heads of the ranges are the nodes of circular lists. As
long as a block leaves the list it is in, the lists are exactly what was put into them. A
block may also be added without a head. Its entry then keeps whatever links an earlier life
in some list left behind, and `Entry::remove`, which takes a null link as the sign that the
entry is in no list, joins two nodes that have nothing to do with it any more.
-/

namespace Monza

open Outcome Transition

namespace OwnershipMap

variable {m m' : OwnershipMap} {b c : Nat} {l a n : ListLink} {v : Option ListLink}
variable {r q owner : CompartmentOwner} {listed listed' : Nat → Option CompartmentOwner}
variable {order xs ys : List Nat}

/-! ## The nodes -/

/-- The nodes of the lists with their links. -/
def links (m : OwnershipMap) : Ring.Links ListLink where
  next
    | .head r => (m.heads r).next
    | .entry b => (m.entries b).next
  prev
    | .head r => (m.heads r).prev
    | .entry b => (m.entries b).prev

@[simp] theorem links_setNext : (m.setNext l v).links = m.links.setNext l v := by
  apply Ring.Links.ext
  · funext a
    cases l <;> cases a <;>
      simp only [links, setNext, Ring.Links.setNext, Function.update_apply, ListLink.head.injEq,
        ListLink.entry.injEq, reduceCtorEq, if_false] <;> split <;> rfl
  · funext a
    cases l <;> cases a <;>
      simp only [links, setNext, Ring.Links.setNext, Function.update_apply] <;>
      split <;> simp_all

@[simp] theorem links_setPrev : (m.setPrev l v).links = m.links.setPrev l v := by
  apply Ring.Links.ext
  · funext a
    cases l <;> cases a <;>
      simp only [links, setPrev, Ring.Links.setPrev, Function.update_apply] <;>
      split <;> simp_all
  · funext a
    cases l <;> cases a <;>
      simp only [links, setPrev, Ring.Links.setPrev, Function.update_apply, ListLink.head.injEq,
        ListLink.entry.injEq, reduceCtorEq, if_false] <;> split <;> rfl

@[simp] theorem links_setOwner : (m.setOwner b owner).links = m.links := by
  apply Ring.Links.ext <;> funext a <;> cases a <;>
    simp only [links, setOwner, Function.update_apply]
  all_goals split <;> simp_all

/-- Linking a block in behind a head that has a successor. -/
theorem addToList_links (first : (m.lazyInit r).links.next (.head r) = some n) :
    (m.addToList r b).links = (m.lazyInit r).links.link (.head r) (.entry b) n := by
  have first' : ((m.lazyInit r).heads r).next = some n := first
  simp only [addToList, first', links_setNext, links_setPrev]
  rfl

theorem links_join {p : ListLink} :
    ((m.setPrev n (some p)).setNext p (some n)).links = m.links.join p n := by
  simp [Ring.Links.join]

/-- What the removal of an entry does to the links. -/
theorem removeFromList_links (done : m.removeFromList b = .ok m') :
    m.links.next (.entry b) = none ∧ m' = m ∨
      ∃ p n, m.links.prev (.entry b) = some p ∧ m.links.next (.entry b) = some n ∧
        m'.links = m.links.join p n := by
  rw [removeFromList] at done
  split at done
  next unlinked =>
    cases done
    exact .inl ⟨unlinked, rfl⟩
  next n next =>
    split at done
    next => cases done
    next p prev =>
      cases done
      exact .inr ⟨p, n, prev, next, links_join⟩

/-! ## What is in a list -/

/-- A node of the list of `r`. -/
def Belongs (listed : Nat → Option CompartmentOwner) (r : CompartmentOwner) : ListLink → Prop
  | .head q => q = r
  | .entry b => listed b = some r

theorem Belongs.unique (h : Belongs listed r a) (h' : Belongs listed q a) : r = q := by
  cases a with
  | head => exact h.symm.trans h'
  | entry b => exact Option.some.inj (h.symm.trans h')

/-- The list of a head. A head that was never used is linked nowhere. -/
def HasList (m : OwnershipMap) (r : CompartmentOwner) (order : List Nat) : Prop :=
  Ring.Circle m.links (.head r) (order.map .entry) ∨ order = [] ∧ m.links.next (.head r) = none

/-- Every list consists of exactly the blocks that are listed under its head. -/
def Lists (m : OwnershipMap) (listed : Nat → Option CompartmentOwner) : Prop :=
  ∀ r, ∃ order, (∀ b, b ∈ order ↔ listed b = some r) ∧ m.HasList r order

/-- Nothing is in any list of the constant-initialised map. -/
theorem Lists.empty : Lists .empty fun _ => none := by
  intro r
  refine ⟨[], fun b => ?_, .inr ⟨rfl, rfl⟩⟩
  simp

theorem belongs_iff_mem (mem : ∀ b, b ∈ order ↔ listed b = some r) :
    Belongs listed r a ↔ a ∈ ListLink.head r :: order.map .entry := by
  cases a with
  | head q => simp [Belongs]
  | entry b => simp [Belongs, mem]

theorem HasList.congr (h : m.HasList r order) (mem : ∀ b, b ∈ order ↔ listed b = some r)
    (same : ∀ a, Belongs listed r a → m.links.SameAt m'.links a) : m'.HasList r order := by
  rcases h with circle | ⟨nil, unlinked⟩
  · exact .inl (circle.congr fun a ha => same a ((belongs_iff_mem mem).mpr ha))
  · exact .inr ⟨nil, (same (.head r) rfl).1.trans unlinked⟩

/-- Only the links of nodes in some list matter. -/
theorem Lists.congr (h : m.Lists listed)
    (same : ∀ r a, Belongs listed r a → m.links.SameAt m'.links a) : m'.Lists listed := by
  intro r
  obtain ⟨order, mem, list⟩ := h r
  exact ⟨order, mem, list.congr mem (same r)⟩

/-- A change to one list that leaves the nodes of the others alone. -/
theorem Lists.replace (h : m.Lists listed) (new : ∀ b, b ∈ order ↔ listed' b = some r)
    (list : m'.HasList r order) (others : ∀ q, q ≠ r → ∀ b, listed' b = some q ↔ listed b = some q)
    (same : ∀ q, q ≠ r → ∀ a, Belongs listed q a → m.links.SameAt m'.links a) :
    m'.Lists listed' := by
  intro q
  by_cases hq : q = r
  · subst hq
    exact ⟨order, new, list⟩
  · obtain ⟨order', mem, list'⟩ := h q
    exact ⟨order', fun b => (mem b).trans (others q hq b).symm, list'.congr mem (same q hq)⟩

/-- After its lazy initialisation a head is on a circle. -/
theorem HasList.lazyInit (h : m.HasList r order) :
    Ring.Circle (m.lazyInit r).links (.head r) (order.map .entry) := by
  rw [OwnershipMap.lazyInit]
  split
  next unlinked =>
    rcases h with circle | ⟨rfl, -⟩
    · have next := circle.next_head
      rw [show m.links.next (.head r) = none from unlinked] at next
      cases next
    · apply Ring.Circle.empty <;> simp
  next linked =>
    rcases h with circle | ⟨-, unlinked⟩
    · exact circle
    · exact absurd unlinked linked

theorem lazyInit_sameAt (other : a ≠ .head r) : m.links.SameAt (m.lazyInit r).links a := by
  rw [lazyInit]
  split
  · constructor <;> simp [other]
  · exact ⟨rfl, rfl⟩

theorem Lists.lazyInit (h : m.Lists listed) : (m.lazyInit r).Lists listed := by
  obtain ⟨order, mem, list⟩ := h r
  refine h.replace mem (.inl list.lazyInit) (fun q _ b => Iff.rfl) ?_
  intro q hq a belongs
  apply lazyInit_sameAt
  rintro rfl
  exact hq belongs.symm

/-- `Head::add` puts a block that is in no list in front. -/
theorem HasList.addToList (h : m.HasList r order) (fresh : b ∉ order) :
    (m.addToList r b).HasList r (b :: order) := by
  have circle := h.lazyInit
  rw [HasList, addToList_links circle.next_head]
  refine .inl (circle.link ?_ circle.next_head)
  simpa using fresh

theorem Lists.addToList (h : m.Lists listed) (fresh : listed b = none) :
    (m.addToList r b).Lists (Function.update listed b (some r)) := by
  obtain ⟨order, mem, list⟩ := h r
  have notMem : b ∉ order := fun hb => by
    rw [mem, fresh] at hb
    cases hb
  refine h.replace (fun c => ?_) (list.addToList notMem) ?_ ?_
  · by_cases hc : c = b
    · subst hc
      simp
    · simp [hc, mem]
  · intro q hq c
    by_cases hc : c = b
    · subst hc
      simp [fresh, Ne.symm hq]
    · simp [hc]
  · intro q hq a belongs
    have circle := list.lazyInit
    have notHead : a ≠ .head r := by
      rintro rfl
      exact hq belongs.symm
    rw [addToList_links circle.next_head]
    refine (lazyInit_sameAt notHead).trans (Ring.Links.sameAt_link notHead ?_ ?_)
    · rintro rfl
      rw [Belongs, fresh] at belongs
      cases belongs
    · rintro rfl
      exact hq (belongs.unique ((belongs_iff_mem mem).mpr Ring.Circle.first_mem))

/-- `Entry::remove` of a block in the middle of a list joins its neighbours. -/
theorem HasList.removeFromList (h : m.HasList r (xs ++ b :: ys)) :
    ∃ p n, (m.entries b).prev = some p ∧ (m.entries b).next = some n ∧
      m.removeFromList b = .ok ((m.setPrev n (some p)).setNext p (some n)) ∧
      Ring.Circle (m.links.join p n) (.head r) ((xs ++ ys).map .entry) ∧
      p ∈ ListLink.head r :: (xs ++ ys).map .entry ∧
      n ∈ ListLink.head r :: (xs ++ ys).map .entry := by
  rcases h with circle | ⟨nil, -⟩
  · rw [List.map_append, List.map_cons] at circle
    obtain ⟨p, n, -, -, -, -, prev, next⟩ := circle.neighbours
    have mem := circle.neighbours_mem prev next
    rw [← List.map_append] at mem
    have prev' : (m.entries b).prev = some p := prev
    have next' : (m.entries b).next = some n := next
    refine ⟨p, n, prev', next', ?_, ?_, mem⟩
    · rw [OwnershipMap.removeFromList, next', prev']
    · rw [List.map_append]
      exact circle.unlink prev next
  · exact absurd nil (List.append_ne_nil_of_right_ne_nil xs (List.cons_ne_nil b ys))

theorem HasList.nodup (h : m.HasList r order) : order.Nodup := by
  rcases h with circle | ⟨rfl, -⟩
  · exact (List.nodup_cons.mp circle.nodup).2.of_map
  · exact List.nodup_nil

theorem Lists.removeFromList (h : m.Lists listed) (mem : listed b = some r) :
    ∃ m', m.removeFromList b = .ok m' ∧ m'.Lists (Function.update listed b none) := by
  obtain ⟨order, memOrder, list⟩ := h r
  obtain ⟨xs, ys, rfl⟩ := List.append_of_mem ((memOrder b).mpr mem)
  obtain ⟨p, n, -, -, done, circle, hp, hn⟩ := list.removeFromList
  have distinct : b ∉ xs ++ ys := (List.nodup_middle.mp list.nodup).notMem
  have rest : ∀ c, c ∈ xs ++ ys ↔ Function.update listed b none c = some r := by
    intro c
    by_cases hc : c = b
    · subst hc
      simpa using distinct
    · rw [Function.update_of_ne hc, ← memOrder]
      simp [hc]
  have node : ∀ {a}, a ∈ ListLink.head r :: (xs ++ ys).map .entry → Belongs listed r a := by
    intro a ha
    apply (belongs_iff_mem memOrder).mpr
    exact (((List.sublist_cons_self b ys).append_left xs).map _).cons_cons _ |>.subset ha
  refine ⟨_, done, h.replace rest (.inl (links_join ▸ circle)) ?_ ?_⟩
  · intro q hq c
    by_cases hc : c = b
    · subst hc
      simp [mem, Ne.symm hq]
    · rw [Function.update_of_ne hc]
  · intro q hq a belongs
    rw [links_join]
    apply Ring.Links.sameAt_join
    · rintro rfl
      exact absurd (belongs.unique (node hp)) hq
    · rintro rfl
      exact absurd (belongs.unique (node hn)) hq

/-! ## Calls, block by block -/

/-- The body of the loop in `add_monza_owner`. -/
def addBlock (owner : CompartmentOwner) (ownerChunkListHead : Option CompartmentOwner) (b : Nat)
    (m : OwnershipMap) : Result OwnershipMap :=
  if (m.entries b).owner ≠ .null then .error .kabort
  else
    let m := m.setOwner b owner
    match ownerChunkListHead with
    | some r => .ok (m.addToList r b)
    | none => .ok m

/-- The body of the loop in `remove_monza_owner`. -/
def removeBlock (owner : CompartmentOwner) (b : Nat) (m : OwnershipMap) : Result OwnershipMap :=
  if (m.entries b).owner ≠ owner then .error .kabort
  else (m.setOwner b .null).removeFromList b

theorem addMonzaOwner_eq {unit p size : Nat} {head : Option CompartmentOwner} :
    addMonzaOwner unit p size owner head m = forEachBlock unit p size (addBlock owner head) m :=
  rfl

theorem removeMonzaOwner_eq {unit p size : Nat} :
    removeMonzaOwner unit p size owner m = forEachBlock unit p size (removeBlock owner) m :=
  rfl

/-- The blocks that a call with this address and size goes over. -/
def blocks (unit p size : Nat) : List Nat :=
  (List.range ((size + (unit - 1)) / unit)).map (p / unit + ·)

theorem blocks_nodup {unit p size : Nat} : (blocks unit p size).Nodup :=
  List.nodup_range.map fun _ _ same => Nat.add_left_cancel same

theorem iterate_add_unit {unit p i : Nat} (bound : p + i * unit < 2 ^ 64) :
    (fun a => u64 (a + unit))^[i] p = p + i * unit := by
  induction i with
  | zero => rw [Function.iterate_zero_apply, Nat.zero_mul, Nat.add_zero]
  | succ i ih =>
      rw [Nat.succ_mul] at bound ⊢
      rw [Function.iterate_succ_apply', ih (by omega), u64_of_lt (by omega), Nat.add_assoc]

/-- The loop over blocks, for units inside the address space. -/
theorem forEachBlock_eq_foldlM {unit p size : Nat}
    {body : Nat → OwnershipMap → Result OwnershipMap} (pos : 0 < unit)
    (bound : p + (size + (unit - 1)) / unit * unit < 2 ^ 64) :
    forEachBlock unit p size body m =
      (blocks unit p size).foldlM (fun m b => body b m) m := by
  have count : ∀ i, i < (size + (unit - 1)) / unit ↔ i * unit < size := by
    intro i
    rw [← Nat.succ_le_iff, Nat.le_div_iff_mul_le pos, Nat.succ_mul]
    omega
  have inside : ∀ i, i ≤ (size + (unit - 1)) / unit → p + i * unit < 2 ^ 64 := by
    intro i hi
    have := Nat.mul_le_mul_right unit hi
    omega
  have whole : size ≤ (size + (unit - 1)) / unit * unit := by
    have := (count ((size + (unit - 1)) / unit)).not.mp (Nat.lt_irrefl _)
    omega
  have addresses : ((List.range ((size + (unit - 1)) / unit)).map
      ((fun a => u64 (a + unit))^[·] p)).map (· / unit) = blocks unit p size := by
    rw [List.map_map, blocks]
    apply List.map_congr_left
    intro i hi
    have hi := List.mem_range.mp hi
    rw [Function.comp_apply, iterate_add_unit (inside i (Nat.le_of_lt hi)),
      Nat.add_mul_div_right _ _ pos]
  rw [forEachBlock, u64_of_lt (by omega), loop_eq_foldlM (n := (size + (unit - 1)) / unit)]
  · rw [← addresses, List.foldlM_map (f := (· / unit))]
  · intro i hi
    rw [iterate_add_unit (inside i (Nat.le_of_lt hi))]
    have := (count i).mp hi
    exact decide_eq_true (by omega)
  · rw [iterate_add_unit (inside _ (Nat.le_refl _))]
    have := (count ((size + (unit - 1)) / unit)).not.mp (Nat.lt_irrefl _)
    exact decide_eq_false (by omega)
  · unfold blockLoopBudget
    have := Nat.le_mul_of_pos_right ((size + (unit - 1)) / unit) pos
    omega

end OwnershipMap

/-- What a call asks for. The head of an addition may be null. -/
inductive OwnershipAction where
  | add (owner : CompartmentOwner) (ownerChunkListHead : Option CompartmentOwner)
  | remove (owner : CompartmentOwner)
  deriving DecidableEq, Repr

/-- A call of `add_monza_owner` or `remove_monza_owner`. -/
structure OwnershipCall where
  p : Nat
  size : Nat
  action : OwnershipAction
  deriving DecidableEq, Repr

/-- The pagemap with a record, for the blocks that were added and not removed since, of the
head they were added with. -/
structure TrackedMap where
  map : OwnershipMap
  added : Nat → Option (Option CompartmentOwner)

namespace TrackedMap

def start : TrackedMap := ⟨.empty, fun _ => none⟩

/-- The list that a block should be in. -/
def listed (u : TrackedMap) (b : Nat) : Option CompartmentOwner := (u.added b).join

end TrackedMap

namespace OwnershipAction

/-- The body of the loop. -/
def run : OwnershipAction → Nat → OwnershipMap → Result OwnershipMap
  | add owner head, b, m => m.addBlock owner head b
  | remove owner, b, m => m.removeBlock owner b

/-- The record of the block afterwards. -/
def outcome : OwnershipAction → Option (Option CompartmentOwner)
  | add _ head => some head
  | remove _ => none

/-- Additions and removals of a block take turns. The owner sees to that unless it is null. -/
def Matches : OwnershipAction → Option (Option CompartmentOwner) → Prop
  | add _ _, added => added = none
  | remove _, added => added ≠ none

instance : ∀ (action : OwnershipAction) added, Decidable (action.Matches added)
  | add _ _, added => inferInstanceAs (Decidable (added = none))
  | remove _, added => inferInstanceAs (Decidable (added ≠ none))

def Legal (u : TrackedMap) (op : Nat × OwnershipAction) : Prop := op.2.Matches (u.added op.1)

instance (u : TrackedMap) (op : Nat × OwnershipAction) : Decidable (Legal u op) :=
  inferInstanceAs (Decidable (op.2.Matches (u.added op.1)))

/-- One iteration, with its record. -/
def next (u : TrackedMap) (op : Nat × OwnershipAction) : Option TrackedMap :=
  (op.2.run op.1 u.map).toOption.map (⟨·, Function.update u.added op.1 op.2.outcome⟩)

def Step : TrackedMap → Nat × OwnershipAction → TrackedMap → Prop := Within Legal next

variable {u v : TrackedMap} {b : Nat} {action : OwnershipAction} {m : OwnershipMap}

theorem step_iff : Step u (b, action) v ↔ action.Matches (u.added b) ∧
    action.run b u.map = .ok v.map ∧ v.added = Function.update u.added b action.outcome := by
  refine and_congr_right fun _ => ?_
  rw [next, Option.map_eq_some_iff]
  constructor
  · rintro ⟨m, run, rfl⟩
    exact ⟨toOption_eq_some.mp run, rfl⟩
  · rintro ⟨run, added⟩
    exact ⟨v.map, toOption_eq_some.mpr run, by rw [← added]⟩

end OwnershipAction

namespace OwnershipCall

open OwnershipMap

def run (unit : Nat) (call : OwnershipCall) (m : OwnershipMap) : Result OwnershipMap :=
  match call.action with
  | .add owner head => m.addMonzaOwner unit call.p call.size owner head
  | .remove owner => m.removeMonzaOwner unit call.p call.size owner

/-- The units of a call lie in the address space. -/
def Fits (unit : Nat) (call : OwnershipCall) : Prop :=
  call.p + (call.size + (unit - 1)) / unit * unit < 2 ^ 64

/-- The iterations of a call. -/
def ops (unit : Nat) (call : OwnershipCall) : List (Nat × OwnershipAction) :=
  (blocks unit call.p call.size).map (·, call.action)

def Legal (unit : Nat) (u : TrackedMap) (call : OwnershipCall) : Prop :=
  call.Fits unit ∧ ∀ b ∈ blocks unit call.p call.size, call.action.Matches (u.added b)

instance (unit : Nat) (u : TrackedMap) (call : OwnershipCall) : Decidable (Legal unit u call) :=
  inferInstanceAs (Decidable (_ < _ ∧ _))

/-- The map after a call, and what it records. -/
def next (unit : Nat) (u : TrackedMap) (call : OwnershipCall) : Option TrackedMap :=
  (call.run unit u.map).toOption.map (⟨·, fun b =>
    if b ∈ blocks unit call.p call.size then call.action.outcome else u.added b⟩)

def Step (unit : Nat) : TrackedMap → OwnershipCall → TrackedMap → Prop :=
  Within (Legal unit) (next unit)

variable {unit : Nat} {u v : TrackedMap} {call : OwnershipCall} {calls : List OwnershipCall}
variable {action : OwnershipAction} {m : OwnershipMap}

theorem run_eq_foldlM (pos : 0 < unit) (fits : call.Fits unit) : call.run unit m =
    (blocks unit call.p call.size).foldlM (fun m b => call.action.run b m) m := by
  obtain ⟨p, size, action⟩ := call
  cases action with
  | add owner head => exact addMonzaOwner_eq.trans (forEachBlock_eq_foldlM pos fits)
  | remove owner => exact removeMonzaOwner_eq.trans (forEachBlock_eq_foldlM pos fits)

/-- The iterations over distinct blocks are steps. -/
theorem run_blocks {bs : List Nat} (distinct : bs.Nodup)
    (matching : ∀ b ∈ bs, action.Matches (u.added b))
    (done : bs.foldlM (fun m b => action.run b m) u.map = .ok m) :
    Run OwnershipAction.Step u (bs.map (·, action))
      ⟨m, fun b => if b ∈ bs then action.outcome else u.added b⟩ := by
  induction bs generalizing u with
  | nil =>
      cases done
      simp only [List.not_mem_nil, if_false]
      exact .nil u
  | cons b bs ih =>
      rw [List.foldlM_cons] at done
      obtain ⟨m₁, first, rest⟩ := bind_eq_ok.mp done
      obtain ⟨notMem, distinct⟩ := List.nodup_cons.mp distinct
      have step : OwnershipAction.Step u (b, action)
          ⟨m₁, Function.update u.added b action.outcome⟩ :=
        OwnershipAction.step_iff.mpr ⟨matching b List.mem_cons_self, first, rfl⟩
      have tail := ih (u := ⟨m₁, Function.update u.added b action.outcome⟩) distinct ?_ rest
      · have added : (fun c => if c ∈ bs then action.outcome
            else Function.update u.added b action.outcome c) =
            fun c => if c ∈ b :: bs then action.outcome else u.added c := by
          funext c
          by_cases hc : c = b
          · subst hc
            simp
          · simp [hc]
        rw [added] at tail
        exact .cons step tail
      · intro c hc
        have other : c ≠ b := fun e => notMem (e ▸ hc)
        simp only [Function.update_of_ne other]
        exact matching c (List.mem_cons_of_mem b hc)

/-- A call is the run of its iterations. -/
theorem Step.run_ops (pos : 0 < unit) (step : Step unit u call v) :
    Run OwnershipAction.Step u (call.ops unit) v := by
  obtain ⟨⟨fits, matching⟩, done⟩ := step
  obtain ⟨m, run, rfl⟩ := Option.map_eq_some_iff.mp done
  refine run_blocks blocks_nodup matching ?_
  rw [← run_eq_foldlM pos fits]
  exact toOption_eq_some.mp run

theorem run_ops_of_run (pos : 0 < unit) (run : Run (Step unit) u calls v) :
    Run OwnershipAction.Step u (calls.flatMap (ops unit)) v := by
  induction run with
  | nil u => exact .nil u
  | cons first _ ih => exact (first.run_ops pos).append ih

end OwnershipCall

namespace TrackedMap

open OwnershipMap OwnershipAction

variable {u v w : TrackedMap} {b : Nat} {owner : CompartmentOwner} {action : OwnershipAction}
variable {op : Nat × OwnershipAction} {n p : ListLink}

/-- All lists are what they should be: circles of exactly the blocks added with their head. -/
def ListsRight (u : TrackedMap) : Prop := u.map.Lists u.listed

/-- No node of any list has other links than before. -/
def SameLists (u v : TrackedMap) : Prop :=
  ∀ r a, Belongs u.listed r a → u.map.links.SameAt v.map.links a

/-- The lists are right after an iteration, and it changes none if it removes a block that was
added without a head. -/
structure KeepsLists (u : TrackedMap) (op : Nat × OwnershipAction) (v : TrackedMap) : Prop where
  right : v.ListsRight
  unlisted : ∀ owner, op.2 = .remove owner → u.added op.1 = some none → SameLists u v

/-- The nodes that the entry of a block points to, as far as they are in some list, are
neighbours already. -/
def Harmless (u : TrackedMap) (b : Nat) : Prop :=
  ∀ p n, u.map.links.prev (.entry b) = some p → u.map.links.next (.entry b) = some n →
    (∀ r, Belongs u.listed r p → u.map.links.next p = some n) ∧
      ∀ r, Belongs u.listed r n → u.map.links.prev n = some p

theorem start_right : start.ListsRight := Lists.empty

/-- The lists after the record of one block has changed. -/
theorem listed_update {entry : Option (Option CompartmentOwner)}
    (added : v.added = Function.update u.added b entry) :
    v.listed = Function.update u.listed b entry.join := by
  funext c
  rw [listed, added]
  by_cases hc : c = b
  · subst hc
    simp
  · simp [hc, listed]

/-- Additions always keep the lists. -/
theorem ListsRight.add {head : Option CompartmentOwner} (h : u.ListsRight)
    (step : Step u (b, .add owner head) v) : v.ListsRight := by
  obtain ⟨free, run, added⟩ := step_iff.mp step
  have fresh : u.listed b = none := by
    rw [listed, show u.added b = none from free]
    rfl
  have after : v.listed = Function.update u.listed b head := listed_update added
  rw [ListsRight, after]
  obtain ⟨-, run⟩ := guard_eq_ok.mp run
  have start : (u.map.setOwner b owner).Lists u.listed :=
    h.congr fun _ _ _ => by rw [links_setOwner]; exact ⟨rfl, rfl⟩
  cases head with
  | none =>
      rw [← Except.ok.inj run, ← fresh, Function.update_eq_self]
      exact start
  | some r =>
      rw [← Except.ok.inj run]
      exact start.addToList fresh

/-- So do removals of blocks that are in a list. -/
theorem ListsRight.removeListed {r : CompartmentOwner} (h : u.ListsRight)
    (mem : u.listed b = some r) (step : Step u (b, .remove owner) v) : v.ListsRight := by
  obtain ⟨-, run, added⟩ := step_iff.mp step
  have after : v.listed = Function.update u.listed b none := listed_update added
  rw [ListsRight, after]
  obtain ⟨-, run⟩ := guard_eq_ok.mp run
  have start : (u.map.setOwner b .null).Lists u.listed :=
    h.congr fun _ _ _ => by rw [links_setOwner]; exact ⟨rfl, rfl⟩
  obtain ⟨m', done, lists⟩ := start.removeFromList mem
  cases run.symm.trans done
  exact lists

/-- The links after the removal of a block that is in no list. -/
theorem removeUnlisted_iff (step : Step u (b, .remove owner) v) : SameLists u v ↔ u.Harmless b := by
  obtain ⟨-, run, -⟩ := step_iff.mp step
  obtain ⟨-, run⟩ := guard_eq_ok.mp run
  have cases := removeFromList_links run
  rw [links_setOwner] at cases
  rcases cases with ⟨unlinked, same⟩ | ⟨p, n, prev, next, join⟩
  · constructor
    · intro _ p n _ next
      rw [unlinked] at next
      cases next
    · intro _ r a _
      rw [same, links_setOwner]
      exact ⟨rfl, rfl⟩
  · constructor
    · intro same p' n' prev' next'
      cases prev.symm.trans prev'
      cases next.symm.trans next'
      constructor
      · intro r belongs
        rw [← (same r p belongs).1, join]
        exact Ring.Links.setNext_next_self
      · intro r belongs
        rw [← (same r n belongs).2, join]
        exact Ring.Links.setPrev_prev_self
    · intro harmless r a belongs
      obtain ⟨left, right⟩ := harmless p n prev next
      rw [join]
      apply Ring.Links.sameAt_join
      · rintro rfl
        exact left r belongs
      · rintro rfl
        exact right r belongs

/-- One iteration keeps the lists exactly if it is not the harmful removal of a block that is in
no list. -/
theorem ListsRight.keeps_iff (h : u.ListsRight) (step : Step u op v) : KeepsLists u op v ↔
    ∀ owner, op.2 = .remove owner → u.added op.1 = some none → u.Harmless op.1 := by
  obtain ⟨b, action⟩ := op
  constructor
  · rintro ⟨-, unlisted⟩ owner rfl none
    exact (removeUnlisted_iff step).mp (unlisted owner rfl none)
  · intro harmless
    cases action with
    | add owner head => exact ⟨h.add step, fun _ no => by cases no⟩
    | remove owner =>
        obtain ⟨added, -, after⟩ := step_iff.mp step
        cases record : u.added b with
        | none => exact absurd record added
        | some head =>
            cases head with
            | some r =>
                refine ⟨h.removeListed (by rw [listed, record]; rfl) step, fun _ _ none => ?_⟩
                rw [record] at none
                cases none
            | none =>
                have same := (removeUnlisted_iff step).mpr (harmless owner rfl record)
                refine ⟨?_, fun _ _ _ => same⟩
                have unchanged : v.listed = u.listed := by
                  rw [listed_update after, Function.update_eq_self_iff, listed, record]
                  rfl
                rw [ListsRight, unchanged]
                exact h.congr same

/-- Up to an iteration that is not harmless the lists are right. -/
theorem right_of_run {ops : List (Nat × OwnershipAction)} (run : Run Step start ops u)
    (harmless : ∀ pre b owner post v, ops = pre ++ (b, .remove owner) :: post →
      Run Step start pre v → v.added b = some none → v.Harmless b) : u.ListsRight := by
  induction ops using List.reverseRecOn generalizing u with
  | nil =>
      cases run
      exact start_right
  | append_singleton ops op ih =>
      obtain ⟨v, before, last⟩ := run.of_append
      have right : v.ListsRight := by
        refine ih before fun pre b owner post w split => ?_
        exact harmless pre b owner (post ++ [op]) w (by rw [split, List.append_assoc]; rfl)
      refine ((right.keeps_iff (Run.single.mp last)).mpr ?_).right
      rintro owner isRemove
      obtain ⟨b, action⟩ := op
      cases isRemove
      exact harmless ops b owner [] v rfl before

/-- In a history of calls the lists are right after every iteration, and no removal of a block
that was added without a head changes one, exactly if every such removal finds an entry whose
links are harmless. -/
theorem ownership_lists_right_iff {ps : PageSize} {minChunkBits : Nat} {calls : List OwnershipCall}
    (run : Run (OwnershipCall.Step (minOwnershipSize ps minChunkBits)) start calls u) :
    (∀ pre op post v w,
        calls.flatMap (OwnershipCall.ops (minOwnershipSize ps minChunkBits)) = pre ++ op :: post →
        Run Step start pre v → Step v op w → KeepsLists v op w) ↔
      ∀ pre b owner post v,
        calls.flatMap (OwnershipCall.ops (minOwnershipSize ps minChunkBits)) =
          pre ++ (b, .remove owner) :: post →
        Run Step start pre v → v.added b = some none → v.Harmless b := by
  have pos : 0 < minOwnershipSize ps minChunkBits := lt_max_of_lt_left ps.bytes_pos
  have whole := OwnershipCall.run_ops_of_run pos run
  constructor
  · intro keeps pre b owner post v split before unlisted
    rw [split] at whole
    obtain ⟨v', before', rest⟩ := whole.of_append
    cases before'.unique before
    cases rest with
    | cons step _ =>
        have same := (keeps pre _ post v _ split before step).unlisted owner rfl unlisted
        exact (removeUnlisted_iff step).mp same
  · intro harmless pre op post v w split before step
    have right : v.ListsRight := by
      refine right_of_run before fun pre' b owner post' u' split' => ?_
      exact harmless pre' b owner (post' ++ op :: post) u' (by
        rw [split, split', List.append_assoc]
        rfl)
    refine (right.keeps_iff step).mpr fun owner isRemove unlisted => ?_
    obtain ⟨b, action⟩ := op
    cases isRemove
    exact harmless pre b owner post v split before unlisted

/-- A block that comes back without a head while its old list is empty, and goes again. -/
def relisted : List OwnershipCall :=
  [⟨0x1000, 0x1000, .add ⟨1⟩ (some ⟨1⟩)⟩, ⟨0x1000, 0x1000, .remove ⟨1⟩⟩,
    ⟨0x1000, 0x1000, .add ⟨2⟩ none⟩, ⟨0x1000, 0x1000, .remove ⟨2⟩⟩]

theorem ownership_lists_right_relisted :
    ∃ t, Run (OwnershipCall.Step (minOwnershipSize .kib4 12)) start relisted t ∧
      ∀ pre op post v w,
        relisted.flatMap (OwnershipCall.ops (minOwnershipSize .kib4 12)) = pre ++ op :: post →
        Run Step start pre v → Step v op w → KeepsLists v op w := by
  have done : (simulate (OwnershipCall.Legal (minOwnershipSize .kib4 12))
      (OwnershipCall.next (minOwnershipSize .kib4 12)) relisted start).map
      (fun t => t.added 1) = some none := by
    decide +kernel
  obtain ⟨t, simulated, -⟩ := Option.map_eq_some_iff.mp done
  refine ⟨t, simulate_run simulated,
    (ownership_lists_right_iff (simulate_run simulated)).mpr ?_⟩
  intro pre b owner post v split before unlisted
  have ops : relisted.flatMap (OwnershipCall.ops (minOwnershipSize .kib4 12)) =
      [(1, .add ⟨1⟩ (some ⟨1⟩)), (1, .remove ⟨1⟩), (1, .add ⟨2⟩ none), (1, .remove ⟨2⟩)] := by
    decide +kernel
  rw [ops] at split
  rcases pre with _ | ⟨first, _ | ⟨second, _ | ⟨third, _ | ⟨fourth, rest⟩⟩⟩⟩
  · cases split
  · -- the block is still in the list when it is removed for the first time
    cases split
    obtain ⟨-, -, added⟩ := step_iff.mp (Run.single.mp before)
    rw [added, Function.update_self] at unlisted
    cases unlisted
  · cases split
  · -- the second time it points to the head only, which is its own neighbour again
    cases split
    have alone : (simulate Legal OwnershipAction.next
        [(1, .add ⟨1⟩ (some ⟨1⟩)), (1, .remove ⟨1⟩), (1, .add ⟨2⟩ none)] start).map (fun t =>
          (t.map.links.prev (.entry 1), t.map.links.next (.entry 1),
            t.map.links.next (.head ⟨1⟩), t.map.links.prev (.head ⟨1⟩))) =
        some (some (.head ⟨1⟩), some (.head ⟨1⟩), some (.head ⟨1⟩), some (.head ⟨1⟩)) := by
      decide +kernel
    obtain ⟨v', simulated, shown⟩ := Option.map_eq_some_iff.mp alone
    cases before.unique (simulate_run simulated)
    simp only [Prod.mk.injEq] at shown
    obtain ⟨prev, next, headNext, headPrev⟩ := shown
    intro p n prev' next'
    cases prev.symm.trans prev'
    cases next.symm.trans next'
    exact ⟨fun _ _ => headNext, fun _ _ => headPrev⟩
  · rcases rest with _ | ⟨_, _⟩ <;> cases split

/-- The same with another block in the list by then. -/
def overtaken : List OwnershipCall :=
  [⟨0x1000, 0x1000, .add ⟨1⟩ (some ⟨1⟩)⟩, ⟨0x1000, 0x1000, .remove ⟨1⟩⟩,
    ⟨0x1000, 0x1000, .add ⟨2⟩ none⟩, ⟨0x2000, 0x1000, .add ⟨1⟩ (some ⟨1⟩)⟩,
    ⟨0x1000, 0x1000, .remove ⟨2⟩⟩]

/-- The removal of a block that is in no list empties the list it was in before: the block that
is still there cannot be found any more. -/
theorem unlisted_removal_empties_list :
    ∃ t, Run (OwnershipCall.Step (minOwnershipSize .kib4 12)) start overtaken t ∧
      t.added 2 = some (some ⟨1⟩) ∧ t.map.links.next (.head ⟨1⟩) = some (.head ⟨1⟩) ∧
      ¬ t.ListsRight := by
  have done : (simulate (OwnershipCall.Legal (minOwnershipSize .kib4 12))
      (OwnershipCall.next (minOwnershipSize .kib4 12)) overtaken start).map
      (fun t => (t.added 2, t.map.links.next (.head ⟨1⟩))) =
      some (some (some ⟨1⟩), some (.head ⟨1⟩)) := by
    decide +kernel
  obtain ⟨t, simulated, shown⟩ := Option.map_eq_some_iff.mp done
  obtain ⟨added, next⟩ := Prod.mk.inj shown
  refine ⟨t, simulate_run simulated, added, next, fun right => ?_⟩
  obtain ⟨order, mem, list⟩ := right ⟨1⟩
  have inList : 2 ∈ order := (mem 2).mpr (by rw [listed, added]; rfl)
  rcases list with circle | ⟨rfl, -⟩
  · have first := circle.next_head
    rw [next] at first
    cases order with
    | nil => cases inList
    | cons b order => cases first
  · cases inList

end TrackedMap

end Monza
