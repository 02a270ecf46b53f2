/-
# Lib.ChainTable -- chained hash tables as lists of pairs

A table of `n` chains, `chain : Nat → List (κ × ν)`, newest pair of a chain
first.  `pairs n chain` is all of it, chain by chain.  Replacing one chain is,
up to order, taking its pairs away and putting the new ones in
(`flatMap_update_perm`), so statements about the whole table follow by permutation
from what happens in one chain.

`Placed bucket n chain` says that every pair is in the chain its key selects.
With distinct keys, a lookup in the key's own chain is then membership in the
table (`lookup_eq_some_iff_mem`).
-/
import Mathlib.Data.List.Perm.Basic
import Mathlib.Data.List.Nodup
import Mathlib.Logic.Function.Basic
import Mathlib.Tactic.Common

namespace ChainTable

open scoped List

set_option autoImplicit false

universe u v

variable {κ : Type u} {ν : Type v}

section Update

variable {ι : Type u} {α : Type v} [DecidableEq ι]

theorem flatMap_update_of_not_mem {l : List ι} (f : ι → List α) {i : ι} (x : List α)
    (absent : i ∉ l) : l.flatMap (Function.update f i x) = l.flatMap f := by
  induction l with
  | nil => rfl
  | cons j l ih =>
      rw [List.mem_cons, not_or] at absent
      rw [List.flatMap_cons, List.flatMap_cons, ih absent.2,
        Function.update_of_ne (Ne.symm absent.1)]

/-- Over distinct indices, replacing one value of `f` trades its elements for the new ones. -/
theorem flatMap_update_perm {l : List ι} (f : ι → List α) {i : ι} (x : List α)
    (distinct : l.Nodup) (member : i ∈ l) :
    (l.flatMap (Function.update f i x) ++ f i).Perm (l.flatMap f ++ x) := by
  induction l with
  | nil => cases member
  | cons j l ih =>
      rw [List.nodup_cons] at distinct
      simp only [List.flatMap_cons]
      by_cases here : i = j
      · subst here
        rw [flatMap_update_of_not_mem f x distinct.1, Function.update_self]
        calc x ++ l.flatMap f ++ f i
            ~ f i ++ (x ++ l.flatMap f) := List.perm_append_comm
          _ ~ f i ++ (l.flatMap f ++ x) := List.perm_append_comm.append_left _
          _ = f i ++ l.flatMap f ++ x := (List.append_assoc _ _ _).symm
      · have inTail : i ∈ l := (List.mem_cons.1 member).resolve_left here
        rw [Function.update_of_ne (Ne.symm here), List.append_assoc, List.append_assoc]
        exact (ih distinct.2 inTail).append_left _

end Update

/-- All pairs of the first `n` chains. -/
def pairs (n : Nat) (chain : Nat → List (κ × ν)) : List (κ × ν) := (List.range n).flatMap chain

theorem mem_pairs {n : Nat} {chain : Nat → List (κ × ν)} {kv : κ × ν} :
    kv ∈ pairs n chain ↔ ∃ i < n, kv ∈ chain i := by
  simp [pairs, List.mem_flatMap]

theorem chain_sublist_pairs {n i : Nat} (chain : Nat → List (κ × ν)) (below : i < n) :
    (chain i).Sublist (pairs n chain) :=
  List.sublist_flatten_of_mem (List.mem_map_of_mem (List.mem_range.2 below))

/-- Replacing chain `i` trades its pairs for the new ones. -/
theorem pairs_update_perm {n i : Nat} (chain : Nat → List (κ × ν)) (l : List (κ × ν))
    (below : i < n) :
    (pairs n (Function.update chain i l) ++ chain i).Perm (pairs n chain ++ l) :=
  flatMap_update_perm chain l List.nodup_range (List.mem_range.2 below)

/-- Pushing a pair on one chain adds it to the table. -/
theorem pairs_push_perm {n i : Nat} (chain : Nat → List (κ × ν)) (kv : κ × ν) (below : i < n) :
    (pairs n (Function.update chain i (kv :: chain i))).Perm (kv :: pairs n chain) := by
  have traded := pairs_update_perm chain (kv :: chain i) below
  have : (pairs n chain ++ kv :: chain i).Perm ((kv :: pairs n chain) ++ chain i) :=
    List.perm_middle
  exact (List.perm_append_right_iff _).1 (traded.trans this)

/-- Taking a pair off one chain takes it out of the table. -/
theorem pairs_take_perm {n i : Nat} (chain : Nat → List (κ × ν)) (kv : κ × ν)
    {l : List (κ × ν)} (below : i < n) (off : (chain i).Perm (kv :: l)) :
    (pairs n chain).Perm (kv :: pairs n (Function.update chain i l)) := by
  have traded := pairs_update_perm chain l below
  have : (pairs n (Function.update chain i l) ++ chain i).Perm
      ((kv :: pairs n (Function.update chain i l)) ++ l) :=
    ((off.append_left _).trans List.perm_middle)
  exact (List.perm_append_right_iff _).1 (traded.symm.trans this)

/-- Every pair sits in the chain its key selects. -/
def Placed (bucket : κ → Nat) (n : Nat) (chain : Nat → List (κ × ν)) : Prop :=
  ∀ i < n, ∀ kv ∈ chain i, bucket kv.1 = i

theorem Placed.update {bucket : κ → Nat} {n i : Nat} {chain : Nat → List (κ × ν)}
    {l : List (κ × ν)} (placed : Placed bucket n chain) (there : ∀ kv ∈ l, bucket kv.1 = i) :
    Placed bucket n (Function.update chain i l) := by
  intro j below kv member
  by_cases at_ : j = i
  · subst at_
    rw [Function.update_self] at member
    exact there kv member
  · rw [Function.update_of_ne at_] at member
    exact placed j below kv member

/-- The pairs whose key selects chain `i` are those of chain `i`. -/
theorem countP_pairs {bucket : κ → Nat} {n i : Nat} {chain : Nat → List (κ × ν)}
    (placed : Placed bucket n chain) (below : i < n) :
    (pairs n chain).countP (fun kv => bucket kv.1 = i) = (chain i).length := by
  have traded := pairs_update_perm chain [] below
  rw [List.append_nil] at traded
  have others : (pairs n (Function.update chain i [])).countP (fun kv => bucket kv.1 = i) = 0 := by
    refine List.countP_eq_zero.2 fun kv member => ?_
    obtain ⟨j, inside, there⟩ := mem_pairs.1 member
    rw [Function.update_apply] at there
    split at there
    next => cases there
    next other => simpa [placed j inside kv there] using other
  have own : (chain i).countP (fun kv => bucket kv.1 = i) = (chain i).length :=
    List.countP_eq_length.2 fun kv member => by simpa using placed i below kv member
  rw [← traded.countP_eq, List.countP_append, others, own, Nat.zero_add]

theorem distinct_chain {n i : Nat} {chain : Nat → List (κ × ν)} (below : i < n)
    (distinct : ((pairs n chain).map Prod.fst).Nodup) : ((chain i).map Prod.fst).Nodup :=
  ((chain_sublist_pairs chain below).map Prod.fst).nodup distinct

section Lookup

variable [BEq κ] [LawfulBEq κ]

theorem lookup_eq_some_iff_mem_chain {l : List (κ × ν)} (distinct : (l.map Prod.fst).Nodup)
    {k : κ} {v : ν} : l.lookup k = some v ↔ (k, v) ∈ l := by
  induction l with
  | nil => simp
  | cons kv l ih =>
      rw [List.map_cons, List.nodup_cons] at distinct
      rw [List.lookup_cons]
      by_cases same : k = kv.1
      · have absent : (k, v) ∉ l := fun member =>
          distinct.1 (same ▸ List.mem_map_of_mem (f := Prod.fst) member)
        simp only [same, beq_self_eq_true, Option.some.injEq, List.mem_cons]
        constructor
        · rintro rfl; exact Or.inl rfl
        · rintro (eq | member)
          · rw [← eq]
          · exact absurd (same ▸ member) absent
      · have differs : (k == kv.1) = false := beq_eq_false_iff_ne.2 same
        rw [differs, List.mem_cons]
        simp only [ih distinct.2]
        constructor
        · exact Or.inr
        · rintro (eq | member)
          · exact absurd (congrArg Prod.fst eq) same
          · exact member

/-- With distinct keys in their own chains, lookup is membership. -/
theorem lookup_eq_some_iff_mem {bucket : κ → Nat} {n : Nat} {chain : Nat → List (κ × ν)}
    (placed : Placed bucket n chain) (distinct : ((pairs n chain).map Prod.fst).Nodup)
    {k : κ} {v : ν} (below : bucket k < n) :
    (chain (bucket k)).lookup k = some v ↔ (k, v) ∈ pairs n chain := by
  rw [lookup_eq_some_iff_mem_chain (distinct_chain below distinct), mem_pairs]
  constructor
  · exact fun member => ⟨_, below, member⟩
  · rintro ⟨i, hi, member⟩
    rw [placed i hi _ member]
    exact member

/-- Removing the first pair of a key takes out the pair a lookup finds. -/
theorem perm_cons_eraseP {l : List (κ × ν)} {k : κ} {v : ν} (found : l.lookup k = some v) :
    l.Perm ((k, v) :: l.eraseP fun kv => kv.1 == k) := by
  induction l with
  | nil => simp at found
  | cons kv l ih =>
      rw [List.lookup_cons] at found
      by_cases same : k = kv.1
      · simp only [same, beq_self_eq_true, Option.some.injEq] at found
        subst found
        rw [List.eraseP_cons_of_pos (by simp [same]), same]
      · have differs : (k == kv.1) = false := beq_eq_false_iff_ne.2 same
        rw [differs] at found
        rw [List.eraseP_cons_of_neg (by simpa using Ne.symm same)]
        exact ((ih found).cons kv).trans (List.Perm.swap _ _ _)

end Lookup

end ChainTable
