/-
# Lib.LinkedList -- singly linked lists in a heap

`next` gives the node after each node of a heap.  `Linked next cur l` says that the nodes from
the pointer `cur` on are `l`, so `l` is what a walk from `cur` goes through.  A node linked to
older ones only, in every list, makes each list end (`exists_linked`).

Unlinking the node after `p` takes it out of every list through `p` (`Linked.unlink`) and leaves
the others as they are (`Linked.congr`).
-/
import Mathlib.Data.List.Nodup
import Mathlib.Logic.Function.Basic
import Mathlib.Order.WellFounded

namespace LinkedList

set_option autoImplicit false

universe u

variable {α : Type u}

inductive Linked (next : α → Option α) : Option α → List α → Prop
  | nil : Linked next none []
  | cons {a : α} {l : List α} (rest : Linked next (next a) l) : Linked next (some a) (a :: l)

/-- The nodes a walk goes through that stops at the first hit. -/
def walked (hit : α → Bool) : List α → List α
  | [] => []
  | a :: l => if hit a then [a] else a :: walked hit l

variable {next next' : α → Option α} {cur : Option α} {l l' : List α} {hit : α → Bool} {p a : α}

theorem walked_subset : walked hit l ⊆ l := by
  induction l with
  | nil => exact List.Subset.refl _
  | cons b l ih =>
      rw [walked]
      split
      · exact List.cons_subset_cons b (List.nil_subset l)
      · exact List.cons_subset_cons b ih

theorem walked_congr {hit' : α → Bool} (same : ∀ a ∈ l, hit' a = hit a) :
    walked hit' l = walked hit l := by
  induction l with
  | nil => rfl
  | cons b l ih =>
      rw [walked, walked, same b List.mem_cons_self,
        ih fun a member => same a (List.mem_cons_of_mem b member)]

theorem hit_or_none (hit : α → Bool) (l : List α) :
    (∃ a ∈ l, hit a = true) ∨ ∀ a ∈ l, hit a = false := by
  by_cases some_ : ∃ a ∈ l, hit a = true
  · exact .inl some_
  · exact .inr fun a member => Bool.eq_false_iff.2 fun here => some_ ⟨a, member, here⟩

/-- Past nodes that are no hits a walk goes on. -/
theorem walked_append_of_not (none_ : ∀ a ∈ l, hit a = false) :
    walked hit (l ++ l') = l ++ walked hit l' := by
  induction l with
  | nil => rfl
  | cons b l ih =>
      rw [List.cons_append, walked, none_ b List.mem_cons_self,
        ih fun a member => none_ a (List.mem_cons_of_mem b member)]
      rfl

/-- After a hit a walk does not go on. -/
theorem walked_append_of_hit (member : a ∈ l) (here : hit a = true) :
    walked hit (l ++ l') = walked hit l := by
  induction l with
  | nil => cases member
  | cons b l ih =>
      rw [List.cons_append, walked, walked]
      by_cases first : hit b = true
      · rw [if_pos first, if_pos first]
      · have there : a ∈ l := (List.mem_cons.1 member).resolve_left fun same => first (same ▸ here)
        rw [if_neg first, if_neg first, ih there]

namespace Linked

theorem unique (linked : Linked next cur l) (linked' : Linked next cur l') : l = l' := by
  induction linked generalizing l' with
  | nil => cases linked'; rfl
  | cons _ ih =>
      cases linked' with
      | cons rest => rw [ih rest]

/-- Links outside the list do not matter. -/
theorem congr (linked : Linked next cur l) (same : ∀ a ∈ l, next' a = next a) :
    Linked next' cur l := by
  induction linked with
  | nil => exact .nil
  | cons _ ih =>
      refine .cons ?_
      rw [same _ List.mem_cons_self]
      exact ih fun b member => same b (List.mem_cons_of_mem _ member)

theorem head (linked : Linked next cur (a :: l)) : cur = some a := by
  cases linked
  rfl

/-- The part of a list after one of its nodes. -/
theorem after {front back : List α} (linked : Linked next cur (front ++ a :: back)) :
    Linked next (next a) back := by
  induction front generalizing cur with
  | nil =>
      cases linked with
      | cons rest => exact rest
  | cons b front ih =>
      cases linked with
      | cons rest => exact ih rest

/-- The list splits at a node that has one after it. -/
theorem split_at (linked : Linked next cur l) (member : p ∈ l) (link : next p = some a) :
    ∃ front back, l = front ++ p :: a :: back := by
  obtain ⟨front, rest, rfl⟩ := List.append_of_mem member
  have tail := linked.after
  rw [link] at tail
  cases tail with
  | cons rest => exact ⟨front, _, rfl⟩

/-- Unlinking the node after `p` takes it out of a list through `p`. -/
theorem unlink [DecidableEq α] {front back : List α}
    (linked : Linked next cur (front ++ p :: a :: back))
    (distinct : (front ++ p :: a :: back).Nodup) :
    Linked (Function.update next p (next a)) cur (front ++ p :: back) := by
  induction front generalizing cur with
  | nil =>
      cases linked with
      | cons rest =>
          generalize after : next p = cur' at rest
          cases rest with
          | cons rest =>
              refine .cons ?_
              rw [Function.update_self]
              refine rest.congr fun b member => Function.update_of_ne ?_ _ _
              rintro rfl
              exact (List.nodup_cons.1 distinct).1 (List.mem_cons_of_mem _ member)
  | cons b front ih =>
      cases linked with
      | cons rest =>
          have apart := List.nodup_cons.1 distinct
          have other : b ≠ p := by
            rintro rfl
            exact apart.1 (List.mem_append_right _ List.mem_cons_self)
          refine .cons ?_
          rw [Function.update_of_ne other]
          exact ih rest apart.2

section Order

variable [Preorder α]

/-- Links that go down end. -/
theorem exists_linked [WellFoundedLT α] (down : ∀ a b, next a = some b → b < a) (cur : Option α) :
    ∃ l, Linked next cur l := by
  have from_ : ∀ a, ∃ l, Linked next (some a) l := by
    intro a
    induction a using WellFoundedLT.induction with
    | ind a ih =>
        cases after : next a with
        | none => exact ⟨[a], .cons (after ▸ .nil)⟩
        | some b =>
            obtain ⟨l, linked⟩ := ih b (down a b after)
            exact ⟨a :: l, .cons (after ▸ linked)⟩
  cases cur with
  | none => exact ⟨[], .nil⟩
  | some a => exact from_ a

/-- A list whose links go down is sorted. -/
theorem sorted (down : ∀ a b, next a = some b → b < a) (linked : Linked next cur l) :
    l.Pairwise (· > ·) ∧ ∀ a, cur = some a → ∀ b ∈ l, b ≤ a := by
  induction linked with
  | nil => exact ⟨.nil, fun _ => nofun⟩
  | @cons a l rest ih =>
      have below : ∀ b ∈ l, b < a := by
        intro b member
        cases after : next a with
        | none =>
            rw [after] at rest
            cases rest
            cases member
        | some c => exact lt_of_le_of_lt (ih.2 c after b member) (down a c after)
      refine ⟨List.pairwise_cons.2 ⟨below, ih.1⟩, ?_⟩
      rintro _ ⟨⟩ b member
      rcases List.mem_cons.1 member with rfl | there
      · exact le_rfl
      · exact le_of_lt (below b there)

theorem nodup (down : ∀ a b, next a = some b → b < a) (linked : Linked next cur l) : l.Nodup :=
  (linked.sorted down).1.imp fun less => (ne_of_lt less).symm

end Order

end Linked

end LinkedList
