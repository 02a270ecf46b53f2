/-
# Hash.Stacks -- the hash table as one stack for each key

`mix_hash_put` never looks for the key it is given, and `mix_hash_delete` unlinks the first
node with its key.  So the values of a key, newest first, are a stack: `Hash.stack` reads it
off the key's chain, past the nodes of other keys that share the bucket.  `Stacks` is the
same without buckets, and a history of calls leaves in both the same stacks.
-/
import Mixdk.Core.Hash
import Mixdk.Lib.KeyStack

namespace Mixdk

set_option autoImplicit false

open ChainTable

/-- A call that changes the table. -/
inductive HashCall
  | put (key value : Nat)
  | delete (key : Nat)

namespace HashCall

def key : HashCall → Nat
  | put key _ => key
  | delete key => key

/-- The values of the call are none that `mix_hash_get` returns for an absent key. -/
def Proper : HashCall → Prop
  | put _ value => value < NO_ENTRY
  | delete _ => True

end HashCall

def Hash.call (h : Hash) : HashCall → Hash
  | .put key value => mixHashPut h key value
  | .delete key => mixHashDelete h key

/-- A table is for this: each key has a stack of values. -/
abbrev Stacks := Nat → List Nat

def Stacks.call (s : Stacks) : HashCall → Stacks
  | .put key value => Function.update s key (value :: s key)
  | .delete key => Function.update s key (s key).tail

/-- The value on top, as `mix_hash_get` returns it. -/
def Stacks.get (s : Stacks) (key : Nat) : Int :=
  match (s key).head? with
  | some value => toInt32 value
  | none => -1

namespace Hash

variable {h : Hash}

/-- The values of a key, newest first. -/
def stack (h : Hash) (key : Nat) : List Nat := stackOf key (h.chain (mixHashHash key h.hashSize))

theorem find?_eq_head? (h : Hash) (key : Nat) : h.find? key = (h.stack key).head? :=
  lookup_eq_head?_stackOf key _

theorem mixHashGet_eq_stack (h : Hash) (key : Nat) : mixHashGet h key = Stacks.get h.stack key := by
  rw [mixHashGet_eq, find?_eq_head?]
  rfl

/-- A put pushes on its own key's stack. -/
theorem stack_put (h : Hash) (key value k : Nat) :
    (mixHashPut h key value).stack k = if k = key then value :: h.stack k else h.stack k := by
  rw [stack, chain_put, put_hashSize]
  by_cases bucket : mixHashHash k h.hashSize = mixHashHash key h.hashSize
  · rw [bucket, Function.update_self, stackOf_cons, stack, bucket]
    simp only [eq_comm]
  · have other : k ≠ key := fun same => bucket (same ▸ rfl)
    rw [Function.update_of_ne bucket, if_neg other]
    rfl

/-- A delete pops its own key's stack; of an absent key, nothing. -/
theorem stack_delete (h : Hash) (key k : Nat) :
    (mixHashDelete h key).stack k = if k = key then (h.stack k).tail else h.stack k := by
  rw [stack, chain_delete, delete_hashSize]
  by_cases bucket : mixHashHash k h.hashSize = mixHashHash key h.hashSize
  · rw [bucket, Function.update_self, stackOf_eraseP, stack, bucket]
  · have other : k ≠ key := fun same => bucket (same ▸ rfl)
    rw [Function.update_of_ne bucket, if_neg other]
    rfl

/-- The table's calls are the stacks' calls. -/
theorem stack_call (h : Hash) (c : HashCall) : (h.call c).stack = Stacks.call h.stack c := by
  funext k
  cases c with
  | put key value =>
      rw [Hash.call, stack_put, Stacks.call, Function.update_apply]
      split
      next same => rw [same]
      next => rfl
  | delete key =>
      rw [Hash.call, stack_delete, Stacks.call, Function.update_apply]
      split
      next same => rw [same]
      next => rfl

theorem stack_calls (h : Hash) (calls : List HashCall) :
    (calls.foldl Hash.call h).stack = calls.foldl Stacks.call h.stack := by
  induction calls generalizing h with
  | nil => rfl
  | cons c calls ih => rw [List.foldl_cons, List.foldl_cons, ih, stack_call]

theorem stack_init (size : Nat) : (mixHashInit size).stack = fun _ => [] := rfl

end Hash

/-- A call leaves the stacks of other keys alone. -/
theorem Stacks.call_of_ne (s : Stacks) {c : HashCall} {k : Nat} (other : c.key ≠ k) :
    s.call c k = s k := by
  cases c <;> exact Function.update_of_ne (Ne.symm other) _ _

/-- What every value of the calls satisfies, every value of the stacks satisfies. -/
theorem Stacks.proper {calls : List HashCall} (proper : ∀ c ∈ calls, c.Proper) {s : Stacks}
    (start : ∀ k, ∀ v ∈ s k, v < NO_ENTRY) : ∀ k, ∀ v ∈ calls.foldl Stacks.call s k, v < NO_ENTRY := by
  induction calls generalizing s with
  | nil => exact start
  | cons c calls ih =>
      obtain ⟨first, rest⟩ := List.forall_mem_cons.1 proper
      refine ih rest fun k v member => ?_
      cases c with
      | put key value =>
          rw [Stacks.call, Function.update_apply] at member
          split at member
          next =>
            rcases List.mem_cons.1 member with rfl | old
            · exact first
            · exact start key v old
          next => exact start k v member
      | delete key =>
          rw [Stacks.call, Function.update_apply] at member
          split at member
          next => exact start key v (List.mem_of_mem_tail member)
          next => exact start k v member

/-- Only an absent key answers -1. -/
theorem Stacks.get_eq_neg_one_iff {s : Stacks} {k : Nat} (proper : ∀ v ∈ s k, v < NO_ENTRY) :
    s.get k = -1 ↔ s k = [] := by
  unfold Stacks.get
  cases values : s k with
  | nil => simp
  | cons v rest =>
      have below := proper v (values ▸ List.mem_cons_self)
      simp only [NO_ENTRY] at below
      have other : toInt32 v ≠ -1 := by
        unfold toInt32
        rw [Int.bmod_def]
        omega
      simp [other]

/-- **After any history a lookup returns the latest put of its key that no delete has taken,
or -1 where there is none; calls for other keys do not matter.** -/
theorem mixHash_stacks (size : Nat) {calls : List HashCall} (proper : ∀ c ∈ calls, c.Proper)
    (k : Nat) :
    let h := calls.foldl Hash.call (mixHashInit size)
    let values := calls.foldl Stacks.call fun _ => []
    mixHashGet h k = values.get k ∧ (mixHashGet h k = -1 ↔ values k = []) ∧
      ∀ c : HashCall, c.key ≠ k → mixHashGet (h.call c) k = mixHashGet h k := by
  intro h values
  have same : h.stack = values := by
    rw [Hash.stack_calls, Hash.stack_init]
  have get : mixHashGet h k = values.get k := by
    rw [Hash.mixHashGet_eq_stack, same]
  refine ⟨get, ?_, fun c other => ?_⟩
  · rw [get]
    exact Stacks.get_eq_neg_one_iff (Stacks.proper proper (by simp) k)
  · rw [get, Hash.mixHashGet_eq_stack, Hash.stack_call, same, Stacks.get, values.call_of_ne other]
    rfl

/-- Two keys in one bucket, one of them put twice and deleted once. -/
theorem mixHash_stacks_of_two :
    let calls : List HashCall := [.put 7 1, .put 8 5, .put 7 2, .delete 7, .delete 9]
    let h := calls.foldl Hash.call (mixHashInit 1)
    let values := calls.foldl Stacks.call fun _ => []
    mixHashGet h 7 = values.get 7 ∧ (mixHashGet h 7 = -1 ↔ values 7 = []) ∧
      ∀ c : HashCall, c.key ≠ 7 → mixHashGet (h.call c) 7 = mixHashGet h 7 :=
  mixHash_stacks 1 (by simp [HashCall.Proper, NO_ENTRY]) 7

end Mixdk
