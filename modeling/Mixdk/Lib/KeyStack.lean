/-
# Lib.KeyStack -- the values of one key in a list of pairs

A list of key/value pairs, newest first, holds for each key a stack of values
(`stackOf`).  Consing a pair pushes on its key's stack, removing the first pair of a key
pops it, and a lookup reads the top; the other stacks do not change.
-/
import Mathlib.Data.List.Basic
import Mathlib.Tactic.Common

namespace ChainTable

set_option autoImplicit false

universe u v

variable {κ : Type u} {ν : Type v} [DecidableEq κ]

/-- The values of `k`, in the order of the list. -/
def stackOf (k : κ) (l : List (κ × ν)) : List ν := (l.filter fun kv => kv.1 = k).map Prod.snd

@[simp] theorem stackOf_nil (k : κ) : stackOf k ([] : List (κ × ν)) = [] := rfl

theorem stackOf_cons (k : κ) (kv : κ × ν) (l : List (κ × ν)) :
    stackOf k (kv :: l) = if kv.1 = k then kv.2 :: stackOf k l else stackOf k l := by
  unfold stackOf
  by_cases same : kv.1 = k <;> simp [same]

/-- A lookup reads the top of the stack. -/
theorem lookup_eq_head?_stackOf (k : κ) (l : List (κ × ν)) :
    l.lookup k = (stackOf k l).head? := by
  induction l with
  | nil => rfl
  | cons kv l ih =>
      rw [stackOf_cons, List.lookup_cons]
      by_cases same : kv.1 = k
      · simp [same]
      · have differs : (k == kv.1) = false := beq_eq_false_iff_ne.2 (Ne.symm same)
        rw [differs, if_neg same, ← ih]

/-- Removing the first pair of a key pops its stack. -/
theorem stackOf_eraseP (k key : κ) (l : List (κ × ν)) :
    stackOf k (l.eraseP fun kv => kv.1 == key) =
      if k = key then (stackOf k l).tail else stackOf k l := by
  induction l with
  | nil => simp
  | cons kv l ih =>
      by_cases first : kv.1 = key
      · rw [List.eraseP_cons_of_pos (by simp [first]), stackOf_cons, first]
        by_cases same : k = key
        · simp [same]
        · simp [same, Ne.symm same]
      · rw [List.eraseP_cons_of_neg (by simp [first]), stackOf_cons, stackOf_cons, ih]
        by_cases same : k = key
        · simp [same, first]
        · simp [same]

end ChainTable
