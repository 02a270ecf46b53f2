/-
# Hash.Membership -- the second lookup and the bucket it looks in

`mix_hash_has_key` walks a chain as `mix_hash_get` does, and the walk is right: in the chain
of the key's own bucket it answers 1 exactly when the lookup finds the key
(`hasKeyWalk_own_bucket`).  But the bucket is computed by `(key, hash->hash_size)`, a comma
expression, where `mix_hash_hash(key, hash->hash_size)` is meant.  Its value is the number of
buckets, so the function reads past the end of the array for every table and key
(`hasKey_out_of_bounds`).
-/
import Mixdk.Hash.Stacks

namespace Mixdk

set_option autoImplicit false

open ChainTable

/-- `hash->hash_nodes[i]`, of an array with `hash_size` elements. -/
def Hash.node? (h : Hash) (i : Nat) : Option HashNode :=
  if i < h.hashSize then some (h.hashNodes i) else none

/-- `hash_key` of `mix_hash_has_key`: the comma operator drops its left operand. -/
def hasKeyIndex (h : Hash) (key : Nat) : Nat := (key, h.hashSize).2

/-- The walk: 1 when it stops at a node, 0 at the end of the chain. -/
def hasKeyWalk (key : Nat) : List MixKv → Int
  | [] => 0
  | kv :: rest => if kv.1 ≠ key then hasKeyWalk key rest else 1

/-- `none` where the bucket is not one of the table. -/
def mixHashHasKey (h : Hash) (key : Nat) : Option Int :=
  (h.node? (hasKeyIndex h key)).map fun node => hasKeyWalk key node.list

/-- The bucket is one of the table, and the answer is that of the lookup. -/
def HasKeyAgrees (h : Hash) (key : Nat) : Prop :=
  hasKeyIndex h key < h.hashSize ∧
    ∃ answer, mixHashHasKey h key = some answer ∧ (answer = 1 ↔ mixHashGet h key ≠ -1)

/-! ## The walk -/

/-- The walk answers 1 exactly when the chain has a value for the key. -/
theorem hasKeyWalk_eq_one_iff (key : Nat) (chain : List MixKv) :
    hasKeyWalk key chain = 1 ↔ stackOf key chain ≠ [] := by
  induction chain with
  | nil => simp [hasKeyWalk]
  | cons kv rest ih =>
      rw [hasKeyWalk, stackOf_cons]
      by_cases here : kv.1 = key
      · rw [if_neg (not_not_intro here), if_pos here]
        exact iff_of_true rfl (List.cons_ne_nil _ _)
      · rw [if_pos here, if_neg here, ih]

/-- **In the key's own bucket the walk agrees with the lookup, after any history of values that
the lookup does not take for -1.** -/
theorem hasKeyWalk_own_bucket (size : Nat) {calls : List HashCall}
    (proper : ∀ c ∈ calls, c.Proper) (key : Nat) :
    let h := calls.foldl Hash.call (mixHashInit size)
    hasKeyWalk key (h.chain (mixHashHash key h.hashSize)) = 1 ↔ mixHashGet h key ≠ -1 := by
  intro h
  have stacks_ : h.stack = calls.foldl Stacks.call fun _ => [] := by
    rw [Hash.stack_calls, Hash.stack_init]
  have values : ∀ v ∈ h.stack key, v < NO_ENTRY := by
    rw [stacks_]
    exact Stacks.proper proper (by simp) key
  rw [hasKeyWalk_eq_one_iff, Hash.mixHashGet_eq_stack, Ne, Ne, Stacks.get_eq_neg_one_iff values]
  rfl

/-! ## The bucket -/

/-- **For every table and key the bucket is past the end of the array.** -/
theorem hasKey_out_of_bounds (size : Nat) (calls : List HashCall) (key : Nat) :
    let h := calls.foldl Hash.call (mixHashInit size)
    hasKeyIndex h key = h.hashSize ∧ ¬ HasKeyAgrees h key := by
  intro h
  exact ⟨rfl, fun agrees => Nat.lt_irrefl h.hashSize agrees.1⟩

/-- Key 7 has been put in a table of one bucket. -/
theorem hasKey_misses_put :
    ¬ HasKeyAgrees ([HashCall.put 7 1].foldl Hash.call (mixHashInit 1)) 7 :=
  fun agrees => Nat.lt_irrefl _ agrees.1

end Mixdk
