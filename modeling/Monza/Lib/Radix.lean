import Mathlib.Algebra.BigOperators.Group.List.Basic
import Mathlib.Algebra.Ring.Nat
import Mathlib.Data.Set.Basic
import Mathlib.Data.List.Nodup

/-!
# Radix trees laid out in a store of nodes

A store maps a node name and a slot to an entry. A coding says which entries
lead to a further node and which entries an inner node may hold at all. `Tree`
is the separated shape: a root of depth `d` owns a set of nodes, and the
subtrees below its slots own pairwise disjoint parts of that set.

`Grown` is what an update of one tree may do to the whole store: it keeps every
node outside the tree and takes further nodes only from those that were not in
use. The two graft rules lift an update below a slot to the tree above it, so
that an implementation descending level by level is verified one level at a time.

`vacancies` counts the nodes that a tree lacks for being full. A new node fills one of
them, and an update below a slot changes the count of the whole as it changes that of the part.
-/

namespace Radix

variable {A I E : Type}

/-- Node contents together with the nodes that have been handed out. -/
structure Store (A I E : Type) where
  nodes : A → I → E
  live : List A

/-- How entries are read. The zero entry leads nowhere and may stand anywhere. -/
structure Coding (A E : Type) where
  child : E → Option A
  inner : E → Prop
  zero : E
  child_zero : child zero = none
  inner_zero : inner zero

namespace Store

variable [DecidableEq A]

/-- Hand out a node whose slots all hold `zero`. -/
def alloc (s : Store A I E) (a : A) (zero : E) : Store A I E :=
  { nodes := fun b j => if b = a then zero else s.nodes b j, live := a :: s.live }

@[simp] theorem alloc_live (s : Store A I E) (a : A) (zero : E) :
    (s.alloc a zero).live = a :: s.live := rfl

theorem alloc_self (s : Store A I E) (a : A) (zero : E) (i : I) :
    (s.alloc a zero).nodes a i = zero := by
  simp [alloc]

theorem alloc_ne (s : Store A I E) {a b : A} (zero : E) (h : b ≠ a) :
    (s.alloc a zero).nodes b = s.nodes b := by
  funext j
  simp [alloc, h]

/-- Take a node back. Its slots keep what they hold. -/
def free (s : Store A I E) (a : A) : Store A I E := { s with live := s.live.erase a }

variable [DecidableEq I]

def write (s : Store A I E) (a : A) (i : I) (e : E) : Store A I E :=
  { s with nodes := fun b j => if b = a ∧ j = i then e else s.nodes b j }

@[simp] theorem write_live (s : Store A I E) (a : A) (i : I) (e : E) :
    (s.write a i e).live = s.live := rfl

@[simp] theorem write_self (s : Store A I E) (a : A) (i : I) (e : E) :
    (s.write a i e).nodes a i = e := by
  simp [write]

theorem write_slot_ne (s : Store A I E) (a : A) {i j : I} (e : E) (h : j ≠ i) :
    (s.write a i e).nodes a j = s.nodes a j := by
  simp [write, h]

theorem write_node_ne (s : Store A I E) {a b : A} (i : I) (e : E) (h : b ≠ a) :
    (s.write a i e).nodes b = s.nodes b := by
  funext j
  simp [write, h]

end Store

/-- The slots of an inner node: `C i` are the nodes below slot `i`. -/
structure Slots (c : Coding A E) (nodes : A → I → E) (P : A → Set A → Prop) (root : A)
    (N : Set A) (C : I → Set A) : Prop where
  inner : ∀ i, c.inner (nodes root i)
  empty : ∀ i, c.child (nodes root i) = none → C i = ∅
  below : ∀ i r, c.child (nodes root i) = some r → P r (C i)
  separate : ∀ i j a, a ∈ C i → a ∈ C j → i = j
  apart : ∀ i, root ∉ C i
  members : ∀ a, a ∈ N ↔ a = root ∨ ∃ i, a ∈ C i

/-- A tree of depth `d` below `root` owning exactly the nodes `N`. Depth zero is
a node of leaves, whose entries are not interpreted. -/
def Tree (c : Coding A E) (nodes : A → I → E) : Nat → A → Set A → Prop
  | 0, root, N => N = {root}
  | d + 1, root, N => ∃ C : I → Set A, Slots c nodes (Tree c nodes d) root N C

/-- Follow the slots of a path from the top; a missing node reads as zero. -/
def lookup (c : Coding A E) (nodes : A → I → E) (path : Nat → I) : Nat → A → E
  | 0, root => nodes root (path 0)
  | d + 1, root =>
    match c.child (nodes root (path (d + 1))) with
    | none => c.zero
    | some r => lookup c nodes path d r

/-- An update of the tree over `N` into one over `M`, seen from the whole store. -/
structure Grown (s t : Store A I E) (N M : Set A) : Prop where
  live : ∀ a ∈ s.live, a ∈ t.live
  owned : ∀ a ∈ M, a ∈ t.live
  grow : ∀ a ∈ N, a ∈ M
  fresh : ∀ a ∈ M, a ∉ N → a ∉ s.live
  frame : ∀ a, a ∉ M → t.nodes a = s.nodes a

variable {c : Coding A E} {nodes nodes' : A → I → E} {d : Nat} {root : A} {N M L : Set A}

theorem Slots.sub {P : A → Set A → Prop} {C : I → Set A}
    (h : Slots c nodes P root N C) {i : I} {a : A} (ha : a ∈ C i) : a ∈ N :=
  (h.members a).mpr (Or.inr ⟨i, ha⟩)

theorem Tree.root_mem (h : Tree c nodes d root N) : root ∈ N := by
  cases d with
  | zero =>
      rw [show N = {root} from h]
      rfl
  | succ d =>
      obtain ⟨C, slots⟩ := h
      exact (slots.members root).mpr (Or.inl rfl)

theorem Tree.inner (h : Tree c nodes (d + 1) root N) (i : I) : c.inner (nodes root i) := by
  obtain ⟨C, slots⟩ := h
  exact slots.inner i

/-- A tree only depends on the nodes it owns. -/
theorem Tree.congr (h : Tree c nodes d root N) (same : ∀ a ∈ N, nodes' a = nodes a) :
    Tree c nodes' d root N := by
  induction d generalizing root N with
  | zero => exact h
  | succ d ih =>
      have hroot : nodes' root = nodes root := same root h.root_mem
      obtain ⟨C, slots⟩ := h
      refine ⟨C, fun i => ?_, fun i hi => ?_, fun i r hi => ?_, slots.separate, slots.apart,
        slots.members⟩
      · rw [hroot]
        exact slots.inner i
      · rw [hroot] at hi
        exact slots.empty i hi
      · rw [hroot] at hi
        exact ih (slots.below i r hi) (fun a ha => same a (slots.sub ha))

theorem Tree.lookup_congr (h : Tree c nodes d root N) (same : ∀ a ∈ N, nodes' a = nodes a)
    (path : Nat → I) : lookup c nodes' path d root = lookup c nodes path d root := by
  induction d generalizing root N with
  | zero => rw [lookup, lookup, same root h.root_mem]
  | succ d ih =>
      have hroot : nodes' root = nodes root := same root h.root_mem
      obtain ⟨C, slots⟩ := h
      rw [lookup, lookup, hroot]
      cases hc : c.child (nodes root (path (d + 1))) with
      | none => rfl
      | some r => exact ih (slots.below _ r hc) (fun a ha => same a (slots.sub ha))

/-- A lookup only depends on the slot it goes through and the nodes below it. -/
theorem Slots.lookup_congr {C : I → Set A} (h : Slots c nodes (Tree c nodes d) root N C)
    (path : Nat → I) (slot : nodes' root (path (d + 1)) = nodes root (path (d + 1)))
    (kept : ∀ a ∈ C (path (d + 1)), nodes' a = nodes a) :
    lookup c nodes' path (d + 1) root = lookup c nodes path (d + 1) root := by
  rw [lookup, lookup, slot]
  cases hc : c.child (nodes root (path (d + 1))) with
  | none => rfl
  | some r => exact (h.below _ r hc).lookup_congr kept path

/-- A zeroed node is a tree of every depth, holding nothing. -/
theorem Tree.of_zero (zeroed : ∀ i, nodes root i = c.zero) : Tree c nodes d root {root} := by
  cases d with
  | zero => rfl
  | succ d =>
      have empty : ∀ i, c.child (nodes root i) = none := by
        intro i
        rw [zeroed, c.child_zero]
      refine ⟨fun _ => ∅, fun i => ?_, fun i _ => rfl, fun i r hi => ?_, fun i j a ha => ?_,
        fun i => Set.notMem_empty root, fun a => ?_⟩
      · rw [zeroed]
        exact c.inner_zero
      · rw [empty] at hi
        cases hi
      · exact absurd ha (Set.notMem_empty a)
      · constructor
        · intro ha
          exact Or.inl ha
        · rintro (ha | ⟨_, ha⟩)
          · exact ha
          · exact absurd ha (Set.notMem_empty a)

theorem lookup_of_zero (zeroed : ∀ i, nodes root i = c.zero) (path : Nat → I) :
    lookup c nodes path d root = c.zero := by
  cases d with
  | zero => rw [lookup, zeroed]
  | succ d => rw [lookup, zeroed, c.child_zero]

/-- Exchange the subtree below one slot. The new nodes have to be disjoint from
everything that stays; the rest of the tree has to be left alone. -/
theorem Slots.replace [DecidableEq I] {C : I → Set A}
    (h : Slots c nodes (Tree c nodes d) root N C) {i : I} {r : A}
    (hchild : c.child (nodes' root i) = some r) (hinner : c.inner (nodes' root i))
    (tree : Tree c nodes' d r M) (slot : ∀ j, j ≠ i → nodes' root j = nodes root j)
    (kept : ∀ j, j ≠ i → ∀ a ∈ C j, nodes' a = nodes a)
    (disjoint : ∀ j, j ≠ i → ∀ a ∈ C j, a ∉ M) (hroot : root ∉ M)
    (total : ∀ a, a ∈ L ↔ a = root ∨ a ∈ M ∨ ∃ j, j ≠ i ∧ a ∈ C j) :
    Tree c nodes' (d + 1) root L := by
  refine ⟨Function.update C i M, fun j => ?_, fun j hj => ?_, fun j q hj => ?_,
    fun j k a ha hk => ?_, fun j => ?_, fun a => ?_⟩
  · by_cases hji : j = i
    · rw [hji]
      exact hinner
    · rw [slot j hji]
      exact h.inner j
  · have hji : j ≠ i := by
      rintro rfl
      rw [hchild] at hj
      cases hj
    rw [Function.update_of_ne hji]
    exact h.empty j (slot j hji ▸ hj)
  · by_cases hji : j = i
    · subst hji
      rw [hchild] at hj
      cases hj
      rw [Function.update_self]
      exact tree
    · rw [Function.update_of_ne hji]
      exact (h.below j q (slot j hji ▸ hj)).congr (kept j hji)
  · by_cases hji : j = i <;> by_cases hki : k = i
    · rw [hji, hki]
    · rw [hji, Function.update_self] at ha
      rw [Function.update_of_ne hki] at hk
      exact absurd ha (disjoint k hki a hk)
    · rw [hki, Function.update_self] at hk
      rw [Function.update_of_ne hji] at ha
      exact absurd hk (disjoint j hji a ha)
    · rw [Function.update_of_ne hji] at ha
      rw [Function.update_of_ne hki] at hk
      exact h.separate j k a ha hk
  · exact (Function.forall_update_iff C fun _ S => root ∉ S).mpr ⟨hroot, fun j _ => h.apart j⟩ j
  · rw [total]
    exact or_congr_right (Function.exists_update_iff C fun _ S => a ∈ S).symm

namespace Grown

variable {s t u : Store A I E}

theorem refl (owned : ∀ a ∈ N, a ∈ s.live) : Grown s s N N :=
  ⟨fun _ ha => ha, owned, fun _ ha => ha, fun _ ha hn => absurd ha hn, fun _ _ => rfl⟩

theorem trans (first : Grown s t N M) (second : Grown t u M L) : Grown s u N L := by
  refine ⟨fun a ha => second.live a (first.live a ha), second.owned,
    fun a ha => second.grow a (first.grow a ha), ?_, ?_⟩
  · intro a ha hn hlive
    by_cases hm : a ∈ M
    · exact first.fresh a hm hn hlive
    · exact second.fresh a ha hm (first.live a hlive)
  · intro a ha
    rw [second.frame a ha]
    exact first.frame a (fun hm => ha (second.grow a hm))

/-- Nodes in use that belong to no part of the updated tree are kept. -/
theorem keeps (h : Grown s t N M) {a : A} (inUse : a ∈ s.live) (outside : a ∉ N) :
    t.nodes a = s.nodes a :=
  h.frame a (fun ha => h.fresh a ha outside inUse)

/-- A tree over nodes in use that are disjoint from the updated ones survives. -/
theorem tree_other (h : Grown s t N M) {e : Nat} {r : A}
    (other : Tree c s.nodes e r L) (inUse : ∀ a ∈ L, a ∈ s.live)
    (separate : ∀ a ∈ L, a ∉ N) : Tree c t.nodes e r L :=
  other.congr (fun a ha => h.keeps (inUse a ha) (separate a ha))

theorem lookup_other (h : Grown s t N M) {e : Nat} {r : A}
    (other : Tree c s.nodes e r L) (inUse : ∀ a ∈ L, a ∈ s.live)
    (separate : ∀ a ∈ L, a ∉ N) (path : Nat → I) :
    lookup c t.nodes path e r = lookup c s.nodes path e r :=
  other.lookup_congr (fun a ha => h.keeps (inUse a ha) (separate a ha)) path

end Grown

section Vacancies

/-- The nodes below the root of a full tree, with `n` slots in a node. -/
def capacity (n : Nat) : Nat → Nat
  | 0 => 0
  | d + 1 => n * (capacity n d + 1)

/-- The nodes that a tree over some slots lacks below its root. -/
def vacancies (c : Coding A E) (slots : List I) (nodes : A → I → E) : Nat → A → Nat
  | 0, _ => 0
  | d + 1, root => (slots.map fun i => (c.child (nodes root i)).elim
      (capacity slots.length d + 1) (vacancies c slots nodes d)).sum

variable {slots : List I}

theorem vacancies_of_zero (zeroed : ∀ i, nodes root i = c.zero) :
    vacancies c slots nodes d root = capacity slots.length d := by
  cases d with
  | zero => rfl
  | succ d =>
      simp only [vacancies, zeroed, c.child_zero, Option.elim_none, List.map_const',
        List.sum_replicate, capacity]
      exact nsmul_eq_mul _ _

theorem Tree.vacancies_congr (h : Tree c nodes d root N) (same : ∀ a ∈ N, nodes' a = nodes a) :
    vacancies c slots nodes' d root = vacancies c slots nodes d root := by
  induction d generalizing root N with
  | zero => rfl
  | succ d ih =>
      have hroot : nodes' root = nodes root := same root h.root_mem
      obtain ⟨C, tree⟩ := h
      rw [vacancies, vacancies, hroot]
      refine congrArg List.sum (List.map_congr_left fun i _ => ?_)
      cases hc : c.child (nodes root i) with
      | none => rfl
      | some r => exact ih (tree.below i r hc) (fun a ha => same a (tree.sub ha))

/-- An empty slot lacks at least its child. -/
theorem vacancies_of_empty [DecidableEq I] {i : I} (empty : c.child (nodes root i) = none)
    (used : i ∈ slots) : 1 ≤ vacancies c slots nodes (d + 1) root := by
  rw [vacancies, ← List.sum_map_erase _ used, empty, Option.elim_none]
  omega

/-- What is lacking below a slot is lacking in the whole. -/
theorem vacancies_of_child [DecidableEq I] {i : I} {r : A}
    (leads : c.child (nodes root i) = some r) (used : i ∈ slots) :
    vacancies c slots nodes d r ≤ vacancies c slots nodes (d + 1) root := by
  rw [vacancies, ← List.sum_map_erase _ used, leads, Option.elim_some]
  exact Nat.le_add_right _ _

/-- A change below one slot: what the other slots lack stays the same. -/
theorem Slots.vacancies_split [DecidableEq I] {C : I → Set A}
    (h : Slots c nodes (Tree c nodes d) root N C) (distinct : slots.Nodup) {i : I}
    (used : i ∈ slots) (slot : ∀ j, j ≠ i → nodes' root j = nodes root j)
    (kept : ∀ j, j ≠ i → ∀ a ∈ C j, nodes' a = nodes a) :
    ∃ k, vacancies c slots nodes (d + 1) root = (c.child (nodes root i)).elim
        (capacity slots.length d + 1) (vacancies c slots nodes d) + k ∧
      vacancies c slots nodes' (d + 1) root = (c.child (nodes' root i)).elim
        (capacity slots.length d + 1) (vacancies c slots nodes' d) + k := by
  refine ⟨_, (List.sum_map_erase _ used).symm, ?_⟩
  rw [vacancies, ← List.sum_map_erase _ used]
  refine congrArg (_ + List.sum ·) (List.map_congr_left fun j hj => ?_)
  have other : j ≠ i := (distinct.mem_erase_iff.mp hj).1
  rw [slot j other]
  cases hc : c.child (nodes root j) with
  | none => rfl
  | some r => exact (h.below j r hc).vacancies_congr (kept j other)

end Vacancies

section Graft

variable [DecidableEq I] {s : Store A I E}

/-- What a tree above a slot learns from an update of the tree below it. -/
structure Grafted (c : Coding A E) (s t : Store A I E) (d : Nat) (root r : A) (i : I)
    (N M : Set A) : Prop where
  tree : Tree c t.nodes (d + 1) root M
  grown : Grown s t N M
  child : c.child (t.nodes root i) = some r
  elsewhere : ∀ path : Nat → I, path (d + 1) ≠ i →
    lookup c t.nodes path (d + 1) root = lookup c s.nodes path (d + 1) root
  vacant : ∀ slots : List I, slots.Nodup → i ∈ slots → ∃ k,
    vacancies c slots s.nodes (d + 1) root = vacancies c slots s.nodes d r + k ∧
      vacancies c slots t.nodes (d + 1) root = vacancies c slots t.nodes d r + k

/-- Descend through an existing child. The nodes of the child form a tree of their own inside
the whole, and every update of it is an update of the whole. -/
theorem Tree.descend_within (h : Tree c s.nodes (d + 1) root N) (inUse : ∀ a ∈ N, a ∈ s.live)
    {i : I} {r : A} (hchild : c.child (s.nodes root i) = some r) :
    ∃ K : Set A, Tree c s.nodes d r K ∧ (∀ a ∈ K, a ∈ N) ∧ root ∉ K ∧
      ∀ (t : Store A I E) (M : Set A), Tree c t.nodes d r M → Grown s t K M →
        Grafted c s t d root r i N (N ∪ M) := by
  have hmem := h.root_mem
  obtain ⟨C, slots⟩ := h
  refine ⟨C i, slots.below i r hchild, fun a ha => slots.sub ha, slots.apart i, ?_⟩
  intro t M tree grown
  -- Nothing else of the old tree can have been taken over by the new child.
  have outside : ∀ a ∈ N, a ∉ C i → a ∉ M :=
    fun a ha hi hm => grown.fresh a hm hi (inUse a ha)
  have disjoint : ∀ j, j ≠ i → ∀ a ∈ C j, a ∉ M := fun j hj a ha =>
    outside a (slots.sub ha) (fun hi => hj (slots.separate j i a ha hi))
  have kept : ∀ j, j ≠ i → ∀ a ∈ C j, t.nodes a = s.nodes a :=
    fun j hj a ha => grown.frame a (disjoint j hj a ha)
  have hapart : root ∉ M := outside root hmem (slots.apart i)
  have hroot : t.nodes root = s.nodes root := grown.frame root hapart
  refine ⟨?_, ?_, by rw [hroot]; exact hchild, ?_, ?_⟩
  · refine slots.replace (by rw [hroot]; exact hchild) (by rw [hroot]; exact slots.inner i)
      tree (fun j _ => by rw [hroot]) kept disjoint hapart (fun a => ?_)
    constructor
    · rintro (ha | ha)
      · rcases (slots.members a).mp ha with ha | ⟨j, hj⟩
        · exact Or.inl ha
        · by_cases hji : j = i
          · exact Or.inr (Or.inl (grown.grow a (hji ▸ hj)))
          · exact Or.inr (Or.inr ⟨j, hji, hj⟩)
      · exact Or.inr (Or.inl ha)
    · rintro (rfl | ha | ⟨j, -, ha⟩)
      · exact Or.inl hmem
      · exact Or.inr ha
      · exact Or.inl (slots.sub ha)
  · refine ⟨grown.live, ?_, fun a ha => Or.inl ha, ?_, ?_⟩
    · rintro a (ha | ha)
      · exact grown.live a (inUse a ha)
      · exact grown.owned a ha
    · rintro a (ha | ha) hn
      · exact absurd ha hn
      · exact grown.fresh a ha (fun hi => hn (slots.sub hi))
    · intro a ha
      exact grown.frame a (fun hm => ha (Or.inr hm))
  · intro path hp
    exact slots.lookup_congr path (by rw [hroot]) (kept _ hp)
  · intro range distinct used
    have split := slots.vacancies_split distinct used (fun j _ => congrFun hroot j) kept
    rw [hroot, hchild] at split
    exact split

theorem Tree.descend (h : Tree c s.nodes (d + 1) root N) (inUse : ∀ a ∈ N, a ∈ s.live)
    {i : I} {r : A} (hchild : c.child (s.nodes root i) = some r) :
    ∃ K : Set A, Tree c s.nodes d r K ∧ (∀ a ∈ K, a ∈ s.live) ∧
      ∀ (t : Store A I E) (M : Set A), Tree c t.nodes d r M → Grown s t K M →
        Grafted c s t d root r i N (N ∪ M) := by
  obtain ⟨K, tree, sub, -, graft⟩ := h.descend_within inUse hchild
  exact ⟨K, tree, fun a ha => inUse a (sub a ha), graft⟩

variable [DecidableEq A]

/-- Install a fresh zeroed child below an empty slot. No lookup changes: the
paths through the slot read zero before and after. The tree lacks one node less. -/
theorem Tree.install (h : Tree c s.nodes (d + 1) root N) (inUse : ∀ a ∈ N, a ∈ s.live)
    {i : I} {n : A} {e : E} (empty : c.child (s.nodes root i) = none)
    (unused : n ∉ s.live) (inner : c.inner e) (leads : c.child e = some n) :
    Tree c ((s.alloc n c.zero).write root i e).nodes (d + 1) root (insert n N) ∧
      Grown s ((s.alloc n c.zero).write root i e) N (insert n N) ∧
      (∀ path : Nat → I,
        lookup c ((s.alloc n c.zero).write root i e).nodes path (d + 1) root =
          lookup c s.nodes path (d + 1) root) ∧
      ∀ slots : List I, slots.Nodup → i ∈ slots →
        vacancies c slots s.nodes (d + 1) root =
          vacancies c slots ((s.alloc n c.zero).write root i e).nodes (d + 1) root + 1 := by
  have hmem := h.root_mem
  obtain ⟨C, slots⟩ := h
  have hroot : root ≠ n := fun heq => unused (heq ▸ inUse root hmem)
  have fresh : ∀ j, ∀ a ∈ C j, a ≠ n :=
    fun j a ha heq => unused (heq ▸ inUse a (slots.sub ha))
  have slot : ∀ j, j ≠ i →
      ((s.alloc n c.zero).write root i e).nodes root j = s.nodes root j := by
    intro j hj
    rw [Store.write_slot_ne _ _ _ hj, Store.alloc_ne _ _ hroot]
  have zeroed : ∀ j, ((s.alloc n c.zero).write root i e).nodes n j = c.zero := by
    intro j
    rw [Store.write_node_ne _ _ _ hroot.symm, Store.alloc_self]
  have kept : ∀ j, ∀ a ∈ C j,
      ((s.alloc n c.zero).write root i e).nodes a = s.nodes a := by
    intro j a ha
    have har : a ≠ root := fun heq => slots.apart j (heq ▸ ha)
    rw [Store.write_node_ne _ _ _ har, Store.alloc_ne _ _ (fresh j a ha)]
  refine ⟨?_, ?_, ?_, ?_⟩
  · refine slots.replace (by rw [Store.write_self]; exact leads)
      (by rw [Store.write_self]; exact inner) (Tree.of_zero zeroed) slot
      (fun j _ => kept j) (fun j _ => fresh j) hroot (fun a => ?_)
    constructor
    · rintro (ha | ha)
      · exact Or.inr (Or.inl ha)
      · rcases (slots.members a).mp ha with ha | ⟨j, hj⟩
        · exact Or.inl ha
        · refine Or.inr (Or.inr ⟨j, ?_, hj⟩)
          rintro rfl
          rw [slots.empty j empty] at hj
          exact hj
    · rintro (rfl | ha | ⟨j, -, ha⟩)
      · exact Or.inr hmem
      · exact Or.inl ha
      · exact Or.inr (slots.sub ha)
  · refine ⟨fun a ha => List.mem_cons_of_mem n ha, ?_, fun a ha => Or.inr ha, ?_, ?_⟩
    · rintro a (rfl | ha)
      · exact List.mem_cons_self
      · exact List.mem_cons_of_mem n (inUse a ha)
    · rintro a (rfl | ha) hn
      · exact unused
      · exact absurd ha hn
    · intro a ha
      have har : a ≠ root := fun heq => ha (Or.inr (heq ▸ hmem))
      have han : a ≠ n := fun heq => ha (Or.inl heq)
      rw [Store.write_node_ne _ _ _ har, Store.alloc_ne _ _ han]
  · intro path
    by_cases hp : path (d + 1) = i
    · rw [lookup, lookup, hp, Store.write_self, leads, empty]
      exact lookup_of_zero zeroed path
    · exact slots.lookup_congr path (slot _ hp) (kept _)
  · intro range distinct used
    obtain ⟨k, before, after⟩ := slots.vacancies_split distinct used slot (fun j _ => kept j)
    rw [Store.write_self, leads, Option.elim_some, vacancies_of_zero zeroed] at after
    rw [empty, Option.elim_none] at before
    omega

/-- Writing a slot of a node of leaves stays inside that node. -/
theorem Tree.write_leaf (i : I) (e : E) (inUse : root ∈ s.live) :
    Tree c (s.write root i e).nodes 0 root {root} ∧
      Grown s (s.write root i e) {root} {root} := by
  refine ⟨rfl, fun a ha => ha, ?_, fun a ha => ha, fun a ha hn => absurd ha hn, ?_⟩
  · rintro a rfl
    exact inUse
  · intro a ha
    exact Store.write_node_ne s i e ha

end Graft

section PostOrder

/-- The nodes that a walk over some slots reaches, each behind those below it. The walk has its
own idea of which entries lead on. -/
def postOrder (child : E → Option A) (slots : List I) (nodes : A → I → E) : Nat → A → List A
  | 0, root => [root]
  | d + 1, root =>
    (slots.flatMap fun i => (child (nodes root i)).elim [] (postOrder child slots nodes d)) ++
      [root]

variable {child : E → Option A} {slots : List I}

/-- Where the walk goes from one slot. -/
theorem mem_postOrder_succ {a : A} : a ∈ postOrder child slots nodes (d + 1) root ↔
    (∃ i ∈ slots, ∃ r, child (nodes root i) = some r ∧ a ∈ postOrder child slots nodes d r) ∨
      a = root := by
  rw [postOrder, List.mem_append, List.mem_singleton, List.mem_flatMap]
  refine or_congr_left (exists_congr fun i => and_congr_right fun _ => ?_)
  cases child (nodes root i) with
  | none => simp
  | some r => simp

/-- A walk that only follows entries of the tree stays in it. -/
theorem Tree.mem_of_postOrder (h : Tree c nodes d root N)
    (sub : ∀ e r, child e = some r → c.child e = some r) {a : A}
    (ha : a ∈ postOrder child slots nodes d root) : a ∈ N := by
  induction d generalizing root N with
  | zero =>
      rw [List.mem_singleton.mp ha]
      exact h.root_mem
  | succ d ih =>
      have top := h.root_mem
      obtain ⟨C, tree⟩ := h
      rcases mem_postOrder_succ.mp ha with ⟨i, -, r, hr, ha⟩ | rfl
      · exact tree.sub (ih (tree.below i r (sub _ _ hr)) ha)
      · exact top

/-- It meets no node twice. -/
theorem Tree.postOrder_nodup (h : Tree c nodes d root N)
    (sub : ∀ e r, child e = some r → c.child e = some r) (distinct : slots.Nodup) :
    (postOrder child slots nodes d root).Nodup := by
  induction d generalizing root N with
  | zero => exact List.nodup_singleton root
  | succ d ih =>
      obtain ⟨C, tree⟩ := h
      have slot : ∀ i, ∀ a ∈ (child (nodes root i)).elim [] (postOrder child slots nodes d),
          a ∈ C i := by
        intro i a ha
        cases hr : child (nodes root i) with
        | none =>
            rw [hr] at ha
            cases ha
        | some r =>
            rw [hr] at ha
            exact (tree.below i r (sub _ _ hr)).mem_of_postOrder sub ha
      rw [postOrder]
      refine List.nodup_append.mpr ⟨?_, List.nodup_singleton root, ?_⟩
      · refine List.nodup_flatMap.mpr ⟨fun i _ => ?_, distinct.imp fun {i j} different => ?_⟩
        · cases hr : child (nodes root i) with
          | none => exact List.nodup_nil
          | some r => exact ih (tree.below i r (sub _ _ hr))
        · -- what is below two slots is separate
          intro a hi hj
          exact different (tree.separate i j a (slot i a hi) (slot j a hj))
      · intro a ha b hb same
        obtain ⟨i, -, hi⟩ := List.mem_flatMap.mp ha
        rw [← List.mem_singleton.mp hb, ← same] at tree
        exact tree.apart i (slot i a hi)

/-- A walk that follows all entries, over all slots in use, meets every node. -/
theorem Tree.mem_postOrder (h : Tree c nodes d root N)
    (same : ∀ e, c.inner e → child e = c.child e)
    (covered : ∀ a ∈ N, ∀ i, c.child (nodes a i) ≠ none → i ∈ slots) {a : A} (ha : a ∈ N) :
    a ∈ postOrder child slots nodes d root := by
  induction d generalizing root N with
  | zero =>
      rw [show N = {root} from h] at ha
      exact List.mem_singleton.mpr ha
  | succ d ih =>
      have top := h.root_mem
      obtain ⟨C, tree⟩ := h
      apply mem_postOrder_succ.mpr
      rcases (tree.members a).mp ha with rfl | ⟨i, hi⟩
      · exact .inr rfl
      · left
        cases leads : c.child (nodes root i) with
        | none =>
            rw [tree.empty i leads] at hi
            exact hi.elim
        | some r =>
            refine ⟨i, covered root top i ?_, r, ?_, ?_⟩
            · rw [leads]
              exact Option.some_ne_none r
            · rw [same _ (tree.inner i), leads]
            · exact ih (tree.below i r leads) (fun b hb => covered b (tree.sub hb)) hi

end PostOrder

end Radix
