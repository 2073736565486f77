import Mathlib.Data.List.Chain
import Mathlib.Data.List.Nodup
import Mathlib.Logic.Function.Basic

/-!
# Circular doubly linked lists

A heap of links gives every node at most one successor and one predecessor. A circle is a
head and the nodes met on the way back to it, each joined to the next in both directions.
Linking a node in behind the head and taking a node out are the two edits; both write two
nodes besides the one that moves, so the circles they do not touch stay as they are.
-/

namespace Ring

variable {α : Type*}

/-- The successor and the predecessor stored at every node. -/
@[ext] structure Links (α : Type*) where
  next : α → Option α
  prev : α → Option α

namespace Links

section Writes

variable [DecidableEq α]

def setNext (s : Links α) (a : α) (v : Option α) : Links α :=
  { s with next := Function.update s.next a v }

def setPrev (s : Links α) (a : α) (v : Option α) : Links α :=
  { s with prev := Function.update s.prev a v }

variable {s : Links α} {a b : α} {v : Option α}

@[simp] theorem setNext_next_self : (s.setNext a v).next a = v := Function.update_self ..

@[simp] theorem setNext_next_of_ne (h : b ≠ a) : (s.setNext a v).next b = s.next b :=
  Function.update_of_ne h ..

@[simp] theorem setNext_prev : (s.setNext a v).prev b = s.prev b := rfl

@[simp] theorem setPrev_prev_self : (s.setPrev a v).prev a = v := Function.update_self ..

@[simp] theorem setPrev_prev_of_ne (h : b ≠ a) : (s.setPrev a v).prev b = s.prev b :=
  Function.update_of_ne h ..

@[simp] theorem setPrev_next : (s.setPrev a v).next b = s.next b := rfl

/-- Join the neighbours of a node that leaves. -/
def join (s : Links α) (p n : α) : Links α := (s.setPrev n (some p)).setNext p (some n)

/-- Put `b` between `h` and its successor `n`. -/
def link (s : Links α) (h b n : α) : Links α :=
  (((s.setPrev b (some h)).setNext b (some n)).setPrev n (some b)).setNext h (some b)

end Writes

/-- The links of one node are the same in two heaps. -/
def SameAt (s t : Links α) (a : α) : Prop := t.next a = s.next a ∧ t.prev a = s.prev a

theorem SameAt.trans {s t u : Links α} {a : α} (h : s.SameAt t a) (h' : t.SameAt u a) :
    s.SameAt u a :=
  ⟨h'.1.trans h.1, h'.2.trans h.2⟩

section Frames

variable [DecidableEq α] {s : Links α} {a b h n p : α}

theorem link_next_of_ne (hh : a ≠ h) (hb : a ≠ b) : (s.link h b n).next a = s.next a := by
  rw [link, setNext_next_of_ne hh, setPrev_next, setNext_next_of_ne hb, setPrev_next]

theorem link_prev_of_ne (hn : a ≠ n) (hb : a ≠ b) : (s.link h b n).prev a = s.prev a := by
  rw [link, setNext_prev, setPrev_prev_of_ne hn, setNext_prev, setPrev_prev_of_ne hb]

theorem join_next_of_ne (hp : a ≠ p) : (s.join p n).next a = s.next a := by
  rw [join, setNext_next_of_ne hp, setPrev_next]

theorem join_prev_of_ne (hn : a ≠ n) : (s.join p n).prev a = s.prev a := by
  rw [join, setNext_prev, setPrev_prev_of_ne hn]

theorem sameAt_link (hh : a ≠ h) (hb : a ≠ b) (hn : a ≠ n) : s.SameAt (s.link h b n) a :=
  ⟨link_next_of_ne hh hb, link_prev_of_ne hn hb⟩

theorem sameAt_join (next : a = p → s.next a = some n) (prev : a = n → s.prev a = some p) :
    s.SameAt (s.join p n) a := by
  constructor
  · by_cases hp : a = p
    · rw [next hp, hp]
      exact setNext_next_self
    · exact join_next_of_ne hp
  · by_cases hn : a = n
    · rw [prev hn, hn, join, setNext_prev, setPrev_prev_self]
    · exact join_prev_of_ne hn

end Frames

end Links

/-- `b` follows `a`, in both directions. -/
def Joined (s : Links α) (a b : α) : Prop := s.next a = some b ∧ s.prev b = some a

section Joined

variable [DecidableEq α] {s : Links α} {h b n p : α}

theorem Joined.join : Joined (s.join p n) p n := by
  constructor
  · exact Links.setNext_next_self
  · rw [Links.join, Links.setNext_prev, Links.setPrev_prev_self]

/-- The new node follows the head. -/
theorem Joined.link_head (bn : b ≠ n) : Joined (s.link h b n) h b := by
  constructor
  · exact Links.setNext_next_self
  · rw [Links.link, Links.setNext_prev, Links.setPrev_prev_of_ne bn, Links.setNext_prev,
      Links.setPrev_prev_self]

/-- The old successor of the head follows the new node. -/
theorem Joined.link_next (bh : b ≠ h) : Joined (s.link h b n) b n := by
  constructor
  · rw [Links.link, Links.setNext_next_of_ne bh, Links.setPrev_next, Links.setNext_next_self]
  · rw [Links.link, Links.setNext_prev, Links.setPrev_prev_self]

end Joined

/-- The nodes met from `head` until it comes round again. -/
structure Circle (s : Links α) (head : α) (xs : List α) : Prop where
  nodup : (head :: xs).Nodup
  joined : List.IsChain (Joined s) (head :: (xs ++ [head]))

/-- A chain reads the successors of all nodes but the last and the predecessors of all but the
first. -/
theorem chain_congr {s t : Links α} {a : α} {l : List α} (h : List.IsChain (Joined s) (a :: l))
    (next : ∀ x ∈ (a :: l).dropLast, t.next x = s.next x) (prev : ∀ x ∈ l, t.prev x = s.prev x) :
    List.IsChain (Joined t) (a :: l) := by
  induction l generalizing a with
  | nil => exact List.isChain_singleton a
  | cons b l ih =>
      obtain ⟨first, rest⟩ := List.isChain_cons_cons.mp h
      rw [List.dropLast_cons_cons] at next
      refine List.isChain_cons_cons.mpr ⟨⟨?_, ?_⟩, ih rest ?_ ?_⟩
      · exact (next a List.mem_cons_self).trans first.1
      · exact (prev b List.mem_cons_self).trans first.2
      · exact fun x mem => next x (List.mem_cons_of_mem a mem)
      · exact fun x mem => prev x (List.mem_cons_of_mem b mem)

namespace Circle

variable {s t : Links α} {head b n p : α} {xs ys : List α}

theorem empty (next : s.next head = some head) (prev : s.prev head = some head) :
    Circle s head [] :=
  ⟨List.nodup_singleton head, List.isChain_pair.mpr ⟨next, prev⟩⟩

theorem next_head (h : Circle s head xs) : s.next head = some (xs.headD head) := by
  cases xs with
  | nil => exact (List.isChain_pair.mp h.joined).1
  | cons x xs => exact (List.isChain_cons_cons.mp h.joined).1.1

theorem next_first (h : Circle s head (b :: ys)) : s.next b = some (ys.headD head) := by
  have chain := (List.isChain_cons_cons.mp h.joined).2
  cases ys with
  | nil => exact (List.isChain_pair.mp chain).1
  | cons y ys => exact (List.isChain_cons_cons.mp chain).1.1

theorem first_mem : xs.headD head ∈ head :: xs := by
  cases xs with
  | nil => exact List.mem_cons_self
  | cons x xs => exact List.mem_cons_of_mem head List.mem_cons_self

/-- A circle reads the links of its own nodes only. -/
theorem congr (h : Circle s head xs) (same : ∀ a ∈ head :: xs, s.SameAt t a) :
    Circle t head xs := by
  refine ⟨h.nodup, chain_congr h.joined ?_ ?_⟩
  · intro a mem
    rw [← List.cons_append, List.dropLast_concat] at mem
    exact (same a mem).1
  · intro a mem
    refine (same a ?_).2
    rcases List.mem_append.mp mem with mem | mem
    · exact List.mem_cons_of_mem head mem
    · exact List.mem_singleton.mp mem ▸ List.mem_cons_self

/-- Every node is joined to both of its neighbours. -/
theorem joined_of_mem (h : Circle s head xs) {a : α} (mem : a ∈ head :: xs) :
    (∃ n, Joined s a n) ∧ ∃ p, Joined s p a := by
  constructor
  · obtain ⟨before, after, split⟩ := List.append_of_mem mem
    have chain := h.joined
    rw [← List.cons_append, split, List.append_assoc, List.cons_append] at chain
    obtain ⟨-, tail⟩ := List.isChain_split.mp chain
    cases after with
    | nil => exact ⟨head, List.isChain_pair.mp tail⟩
    | cons n after => exact ⟨n, (List.isChain_cons_cons.mp tail).1⟩
  · have mem' : a ∈ xs ++ [head] := by
      rcases List.mem_cons.mp mem with rfl | mem
      · exact List.mem_append_right xs (List.mem_singleton.mpr rfl)
      · exact List.mem_append_left [head] mem
    obtain ⟨before, after, split⟩ := List.append_of_mem mem'
    have chain := h.joined
    rw [split] at chain
    rcases List.eq_nil_or_concat before with rfl | ⟨before, p, rfl⟩
    · exact ⟨head, (List.isChain_cons_cons.mp chain).1⟩
    · rw [List.concat_eq_append, List.append_assoc, List.singleton_append] at chain
      exact ⟨p, (List.isChain_cons_append_cons_cons.mp chain).2.1⟩

section Edits

variable [DecidableEq α]

/-- Link a node in behind the head. -/
theorem link (h : Circle s head xs) (fresh : b ∉ head :: xs) (next : s.next head = some n) :
    Circle (s.link head b n) head (b :: xs) := by
  obtain ⟨notHead, notMem⟩ := not_or.mp (List.mem_cons.not.mp fresh)
  obtain ⟨headFresh, nodup⟩ := List.nodup_cons.mp h.nodup
  have first : n = xs.headD head := Option.some.inj (next.symm.trans h.next_head)
  have bn : b ≠ n := by
    rintro rfl
    cases xs with
    | nil => exact notHead first
    | cons x xs => exact notMem (first ▸ List.mem_cons_self)
  have behind : Joined (s.link head b n) b n := .link_next notHead
  refine ⟨List.nodup_cons.mpr ⟨?_, List.nodup_cons.mpr ⟨notMem, nodup⟩⟩, ?_⟩
  · exact List.mem_cons.not.mpr (not_or.mpr ⟨Ne.symm notHead, headFresh⟩)
  · refine List.isChain_cons_cons.mpr ⟨.link_head bn, ?_⟩
    cases xs with
    | nil =>
        cases first
        exact List.isChain_pair.mpr behind
    | cons x xs =>
        -- behind the new node nothing has changed but the way back from the old first one
        have first : n = x := first
        cases first
        have chain : List.IsChain (Joined s) (n :: (xs ++ [head])) :=
          (List.isChain_cons_cons.mp h.joined).2
        have rest : List.IsChain (Joined (s.link head b n)) (n :: (xs ++ [head])) := by
          refine chain_congr chain ?_ ?_
          · intro a mem
            rw [← List.cons_append, List.dropLast_concat] at mem
            exact Links.link_next_of_ne (fun e => headFresh (e ▸ mem)) (fun e => notMem (e ▸ mem))
          · intro a mem
            rcases List.mem_append.mp mem with mem | mem
            · refine Links.link_prev_of_ne (fun e => (List.nodup_cons.mp nodup).1 (e ▸ mem))
                (fun e => ?_)
              exact notMem (e ▸ List.mem_cons_of_mem n mem)
            · rw [List.mem_singleton.mp mem]
              exact Links.link_prev_of_ne (fun e => headFresh (e ▸ List.mem_cons_self))
                (Ne.symm notHead)
        exact List.isChain_cons_cons.mpr ⟨behind, rest⟩

omit [DecidableEq α] in
/-- The chain through a node, cut at it. -/
theorem split_at (h : Circle s head (xs ++ b :: ys)) :
    List.IsChain (Joined s) ((head :: xs) ++ [b]) ∧
      List.IsChain (Joined s) (b :: (ys ++ [head])) := by
  refine List.isChain_split.mp ?_
  have chain := h.joined
  rwa [List.append_assoc, List.cons_append, ← List.cons_append] at chain

omit [DecidableEq α] in
/-- The neighbours of a node, with what lies before and behind them. -/
theorem neighbours (h : Circle s head (xs ++ b :: ys)) : ∃ p n front back,
    head :: xs = front ++ [p] ∧ ys ++ [head] = n :: back ∧
      s.prev b = some p ∧ s.next b = some n := by
  obtain ⟨into, outOf⟩ := h.split_at
  obtain ⟨front, p, hp⟩ : ∃ front p, head :: xs = front ++ [p] :=
    ⟨_, _, (List.dropLast_append_getLast (List.cons_ne_nil head xs)).symm⟩
  obtain ⟨n, back, hn⟩ : ∃ n back, ys ++ [head] = n :: back :=
    List.exists_cons_of_ne_nil (List.append_ne_nil_of_right_ne_nil ys (List.cons_ne_nil head []))
  rw [hp, List.append_assoc, List.singleton_append] at into
  rw [hn] at outOf
  exact ⟨p, n, front, back, hp, hn, (List.isChain_append_cons_cons.mp into).2.1.2,
    (List.isChain_cons_cons.mp outOf).1.1⟩

omit [DecidableEq α] in
/-- The neighbours of a node stay when it goes. -/
theorem neighbours_mem (h : Circle s head (xs ++ b :: ys)) (prev : s.prev b = some p)
    (next : s.next b = some n) : p ∈ head :: (xs ++ ys) ∧ n ∈ head :: (xs ++ ys) := by
  obtain ⟨p', n', front, back, hp, hn, prev', next'⟩ := h.neighbours
  cases prev.symm.trans prev'
  cases next.symm.trans next'
  have left : p ∈ head :: xs := by
    rw [hp]
    exact List.mem_append_right front (List.mem_singleton.mpr rfl)
  have right : n ∈ ys ++ [head] := by
    rw [hn]
    exact List.mem_cons_self
  constructor
  · rw [← List.cons_append]
    exact List.mem_append_left ys left
  · rcases List.mem_append.mp right with mem | mem
    · exact List.mem_cons_of_mem head (List.mem_append_right xs mem)
    · exact List.mem_singleton.mp mem ▸ List.mem_cons_self

/-- Take a node out. -/
theorem unlink (h : Circle s head (xs ++ b :: ys)) (prev : s.prev b = some p)
    (next : s.next b = some n) : Circle (s.join p n) head (xs ++ ys) := by
  obtain ⟨into, outOf⟩ := h.split_at
  obtain ⟨p', n', front, back, hp, hn, prev', next'⟩ := h.neighbours
  cases prev.symm.trans prev'
  cases next.symm.trans next'
  have nodup : ((head :: xs) ++ ys).Nodup :=
    h.nodup.sublist (((List.sublist_cons_self b ys).append_left xs).cons_cons head)
  obtain ⟨nodupFront, nodupBack, apart⟩ := List.nodup_append.mp nodup
  have pMem : p ∈ head :: xs := by
    rw [hp]
    exact List.mem_append_right front (List.mem_singleton.mpr rfl)
  have frontChain : List.IsChain (Joined (s.join p n)) (head :: xs) := by
    refine chain_congr into.left_of_append ?_ ?_
    · intro a mem
      refine Links.join_next_of_ne fun e => ?_
      rw [hp] at nodupFront mem
      rw [List.dropLast_concat] at mem
      exact (List.nodup_append.mp nodupFront).2.2 a mem p (List.mem_singleton.mpr rfl) e
    · intro a mem
      refine Links.join_prev_of_ne fun e => ?_
      cases ys with
      | nil =>
          cases hn
          exact (List.nodup_cons.mp nodupFront).1 (e ▸ mem)
      | cons y ys =>
          cases hn
          exact apart a (List.mem_cons_of_mem head mem) n List.mem_cons_self e
  have backChain : List.IsChain (Joined (s.join p n)) (n :: back) := by
    rw [hn] at outOf
    refine chain_congr (List.isChain_cons_cons.mp outOf).2 ?_ ?_
    · intro a mem
      rw [← hn, List.dropLast_concat] at mem
      exact Links.join_next_of_ne fun e => apart p pMem a mem e.symm
    · intro a mem
      refine Links.join_prev_of_ne fun e => ?_
      cases ys with
      | nil =>
          cases hn
          cases mem
      | cons y ys =>
          cases hn
          rcases List.mem_append.mp mem with mem | mem
          · exact (List.nodup_cons.mp nodupBack).1 (e ▸ mem)
          · rw [List.mem_singleton.mp mem] at e
            exact apart head List.mem_cons_self n List.mem_cons_self e
  refine ⟨nodup, ?_⟩
  rw [List.append_assoc, ← List.cons_append, hn, hp, List.append_assoc, List.singleton_append]
  exact List.isChain_append_cons_cons.mpr ⟨hp ▸ frontChain, .join, backChain⟩

end Edits

end Circle

end Ring
