/-
# Lib.Counters -- a family of counters that saturate

Incrementing a counter at `top` and decrementing one at 0 do nothing.  A list of decrements
subtracts from each counter how often the list names it (`decrements_eq`); a list of
increments adds it as long as no counter passes `top` (`increments_eq`), and leaves a counter
at `top` where it is (`increments_top`).
-/
import Mathlib.Data.List.Count
import Mathlib.Logic.Function.Basic

namespace Counters

set_option autoImplicit false

universe u

variable {ι : Type u} [DecidableEq ι] {top : Nat} {c : ι → Nat}

def increment (top : Nat) (c : ι → Nat) (i : ι) : ι → Nat :=
  if c i = top then c else Function.update c i (c i + 1)

def decrement (c : ι → Nat) (i : ι) : ι → Nat := Function.update c i (c i - 1)

theorem increments_eq {l : List ι} (room : ∀ i ∈ l, c i + l.count i ≤ top) :
    l.foldl (increment top) c = fun i => c i + l.count i := by
  induction l generalizing c with
  | nil => rfl
  | cons a l ih =>
      have here := room a List.mem_cons_self
      rw [List.count_cons_self] at here
      have below : ¬ c a = top := by omega
      have value : ∀ i, increment top c a i + l.count i = c i + (a :: l).count i := by
        intro i
        rw [increment, if_neg below, Function.update_apply]
        by_cases same : i = a
        · rw [if_pos same, same, List.count_cons_self]
          omega
        · rw [if_neg same, List.count_cons_of_ne (Ne.symm same)]
      rw [List.foldl_cons, ih fun i member => ?_]
      · exact funext value
      · rw [value]
        exact room i (List.mem_cons_of_mem a member)

theorem increments_top {l : List ι} {i : ι} (full : c i = top) :
    l.foldl (increment top) c i = top := by
  induction l generalizing c with
  | nil => exact full
  | cons a l ih =>
      refine ih ?_
      unfold increment
      split
      next => exact full
      next below =>
        have other : i ≠ a := by
          rintro rfl
          exact below full
        rw [Function.update_of_ne other, full]

theorem decrements_eq (l : List ι) (c : ι → Nat) :
    l.foldl decrement c = fun i => c i - l.count i := by
  induction l generalizing c with
  | nil => rfl
  | cons a l ih =>
      rw [List.foldl_cons, ih]
      funext i
      rw [decrement, Function.update_apply]
      by_cases same : i = a
      · rw [if_pos same, same, List.count_cons_self]
        omega
      · rw [if_neg same, List.count_cons_of_ne (Ne.symm same)]

end Counters
