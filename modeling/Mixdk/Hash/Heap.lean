/-
# Hash.Heap -- the chains as nodes in memory

`Core.Hash` has a bucket's chain as a list.  Here it is what the code has: a pointer to a node,
and nodes that point to each other.  A node is its number in the order of the puts, so memory
given back is never handed out again, and `freed` says which nodes were given back; deleting a
bucket's first node unlinks it but does not give it back.

As long as every node points to an older one (`Shaped`), the loops end, and what they go through
is a list of nodes (`NodeTable.path`).  The lists of the buckets make a table of `Core.Hash`
(`NodeTable.hash`).
-/
import Mixdk.Core.Hash
import Mixdk.Lib.LinkedList
import Mathlib.Data.List.Perm.Subperm

namespace Mixdk

set_option autoImplicit false

open LinkedList

/-- `hash_list_node_t`. -/
structure ListNode where
  key : Nat
  value : Nat
  next : Option Nat

/-- `hash_node_t`: the bucket's counter, an `int`, and the pointer to its first node. -/
structure BucketNode where
  len : Int32
  list : Option Nat

/-- `mix_hash_t` and the memory its nodes are in. -/
structure NodeTable where
  hashSize : Nat
  hashNodes : Nat → BucketNode
  nodes : Nat → ListNode
  mallocs : Nat
  freed : Nat → Bool

/-! ## The loops -/

/-- The loop of `mix_hash_get` from the pointer `cur` on: the nodes it looks at and the value;
`none` when it does not end within `n` turns. -/
def getLoop (nodes : Nat → ListNode) (key : Nat) : Nat → Option Nat → Option (List Nat × Int)
  | _, none => some ([], -1)
  | 0, some _ => none
  | n + 1, some cur =>
      if (nodes cur).key = key then some ([cur], toInt32 (nodes cur).value)
      else (getLoop nodes key n (nodes cur).next).map fun rest => (cur :: rest.1, rest.2)

/-- The loop of `mix_hash_delete`: `prev` and `cur` when it finds the key. -/
def deleteLoop (nodes : Nat → ListNode) (key : Nat) :
    Nat → Option Nat → Option Nat → Option (Option (Option Nat × Nat))
  | _, _, none => some none
  | 0, _, some _ => none
  | n + 1, prev, some cur =>
      if (nodes cur).key = key then some (some (prev, cur))
      else deleteLoop nodes key n (some cur) (nodes cur).next

/-- The nodes from the pointer `cur` on, `n` at most. -/
def listFrom (nodes : Nat → ListNode) : Nat → Option Nat → List Nat
  | _, none => []
  | 0, some _ => []
  | n + 1, some cur => cur :: listFrom nodes n (nodes cur).next

namespace NodeTable

def setBucket (t : NodeTable) (i : Nat) (node : BucketNode) : NodeTable :=
  { t with hashNodes := Function.update t.hashNodes i node }

/-- `mix_hash_init`. -/
def init (size : Nat) : NodeTable :=
  { hashSize := size
    hashNodes := fun _ => { len := 0, list := none }
    nodes := fun _ => { key := 0, value := 0, next := none }
    mallocs := 0
    freed := fun _ => false }

/-- `mix_hash_put`. -/
def put (t : NodeTable) (key value : Nat) : NodeTable :=
  let hashKey := mixHashHash key t.hashSize
  let node := t.hashNodes hashKey
  let newNode := t.mallocs
  { t with
    nodes := Function.update t.nodes newNode { key := key, value := value, next := node.list }
    mallocs := t.mallocs + 1
    hashNodes := Function.update t.hashNodes hashKey { len := node.len + 1, list := some newNode } }

/-- The walk of `mix_hash_get` from a copy of the bucket's pointer on. -/
def walk (t : NodeTable) (key : Nat) (head : Option Nat) : Option (List Nat × Int) :=
  getLoop t.nodes key t.mallocs head

/-- The search of `mix_hash_delete`. -/
def search (t : NodeTable) (key : Nat) : Option (Option (Option Nat × Nat)) :=
  deleteLoop t.nodes key t.mallocs none (t.hashNodes (mixHashHash key t.hashSize)).list

/-- `prev->next = cur->next; free(cur)`. -/
def unlink (t : NodeTable) (prev cur : Nat) : NodeTable :=
  { t with
    nodes := Function.update t.nodes prev { t.nodes prev with next := (t.nodes cur).next }
    freed := Function.update t.freed cur true }

/-- `mix_hash_delete`; `prev` is NULL just when `cur` is the head. -/
def delete (t : NodeTable) (key : Nat) : Option NodeTable :=
  let hashKey := mixHashHash key t.hashSize
  let node := t.hashNodes hashKey
  (t.search key).map fun
    | none => t.setBucket hashKey { node with len := node.len - 1 }
    | some (none, cur) =>
        t.setBucket hashKey { len := node.len - 1, list := (t.nodes cur).next }
    | some (some prev, cur) =>
        (t.unlink prev cur).setBucket hashKey { node with len := node.len - 1 }

/-- `free(hash_node->list); hash_node->list = list_node; hash_node->len--`. -/
def takeHead (t : NodeTable) (i cur : Nat) : NodeTable :=
  { t.setBucket i { len := (t.hashNodes i).len - 1, list := (t.nodes cur).next } with
    freed := Function.update t.freed cur true }

/-- `mix_hash_get_entry_by_idx`; `none` when it dereferences NULL. -/
def pop (t : NodeTable) (idx : Nat) : Option (MixKv × NodeTable) :=
  if 0 < (t.hashNodes idx).len then
    (t.hashNodes idx).list.map fun cur =>
      (((t.nodes cur).key, (t.nodes cur).value), t.takeHead idx cur)
  else some ((NO_ENTRY, NO_ENTRY), t)

/-! ## Chains -/

def next (t : NodeTable) (a : Nat) : Option Nat := (t.nodes a).next

/-- The nodes from the pointer `cur` on. -/
def path (t : NodeTable) (cur : Option Nat) : List Nat := listFrom t.nodes t.mallocs cur

/-- The nodes of bucket `i`. -/
def chain (t : NodeTable) (i : Nat) : List Nat := t.path (t.hashNodes i).list

def entry (t : NodeTable) (a : Nat) : MixKv := ((t.nodes a).key, (t.nodes a).value)

/-- The table of `Core.Hash` in memory. -/
def hash (t : NodeTable) : Hash :=
  { hashSize := t.hashSize
    hashNodes := fun i => { len := (t.hashNodes i).len, list := (t.chain i).map t.entry }
    hashNodeEntryIdx := -1 }

/-- A pointer to a node that was handed out. -/
def Handed (t : NodeTable) (cur : Option Nat) : Prop := ∀ a, cur = some a → a < t.mallocs

/-- Every node points to an older one, and every bucket to one that was handed out. -/
structure Shaped (t : NodeTable) : Prop where
  down : ∀ a b, t.next a = some b → b < a
  heads : ∀ i, t.Handed (t.hashNodes i).list

section

variable {t : NodeTable} {cur prev : Option Nat} {l : List Nat} {key n : Nat}

theorem listFrom_eq {nodes : Nat → ListNode} (linked : Linked (fun a => (nodes a).next) cur l)
    (enough : l.length ≤ n) : listFrom nodes n cur = l := by
  induction linked generalizing n with
  | nil => cases n <;> rfl
  | cons rest ih =>
      match n with
      | n + 1 => rw [listFrom, ih (Nat.le_of_succ_le_succ enough)]

/-- The node has the key. -/
def hit (t : NodeTable) (key a : Nat) : Bool := (t.nodes a).key == key

theorem hit_iff {a : Nat} : t.hit key a = true ↔ (t.nodes a).key = key := beq_iff_eq

/-- The value of the first node with the key. -/
def valueIn (t : NodeTable) (key : Nat) (l : List Nat) : Int :=
  match l.find? (t.hit key) with
  | some a => toInt32 (t.nodes a).value
  | none => -1

theorem getLoop_eq (linked : Linked t.next cur l) (enough : l.length ≤ n) :
    getLoop t.nodes key n cur =
      some (walked (t.hit key) l, t.valueIn key l) := by
  induction linked generalizing n with
  | nil => cases n <;> rfl
  | @cons a l rest ih =>
      match n with
      | n + 1 =>
          rw [getLoop, walked, valueIn, List.find?_cons]
          by_cases here : (t.nodes a).key = key
          · rw [if_pos here, if_pos (hit_iff.2 here), hit_iff.2 here]
          · rw [if_neg here, if_neg (mt hit_iff.1 here), Bool.eq_false_iff.2 (mt hit_iff.1 here)]
            have tail := @ih n (Nat.le_of_succ_le_succ enough)
            rw [show (t.nodes a).next = t.next a from rfl, tail]
            rfl

theorem deleteLoop_none (linked : Linked t.next cur l) (enough : l.length ≤ n)
    (absent : ∀ a ∈ l, (t.nodes a).key ≠ key) : deleteLoop t.nodes key n prev cur = some none := by
  induction linked generalizing n prev with
  | nil => cases n <;> rfl
  | @cons a l rest ih =>
      match n with
      | n + 1 =>
          rw [deleteLoop, if_neg (absent a List.mem_cons_self)]
          exact ih (Nat.le_of_succ_le_succ enough) fun b member =>
            absent b (List.mem_cons_of_mem a member)

theorem deleteLoop_some {front back : List Nat} {a : Nat}
    (linked : Linked t.next cur (front ++ a :: back)) (enough : (front ++ a :: back).length ≤ n)
    (before : ∀ b ∈ front, (t.nodes b).key ≠ key) (here : (t.nodes a).key = key) :
    deleteLoop t.nodes key n prev cur = some (some (front.getLast?.or prev, a)) := by
  induction front generalizing n prev cur with
  | nil =>
      cases linked with
      | cons rest =>
          match n with
          | n + 1 =>
              rw [deleteLoop, if_pos here]
              rfl
  | cons b front ih =>
      cases linked with
      | cons rest =>
          match n with
          | n + 1 =>
              rw [deleteLoop, if_neg (before b List.mem_cons_self),
                show (t.nodes b).next = t.next b from rfl,
                ih rest (Nat.le_of_succ_le_succ enough) fun c member =>
                  before c (List.mem_cons_of_mem b member)]
              cases front <;> simp [List.getLast?_cons]

namespace Shaped

/-- A walk from a pointer to a node that was handed out ends, within the turns the loops have. -/
theorem path_spec (shaped : t.Shaped) (handed : t.Handed cur) :
    Linked t.next cur (t.path cur) ∧ (t.path cur).length ≤ t.mallocs := by
  obtain ⟨l, linked⟩ := Linked.exists_linked shaped.down cur
  have below : l ⊆ List.range t.mallocs := by
    intro b member
    cases cur with
    | none => cases linked; cases member
    | some a =>
        have upTo := (linked.sorted shaped.down).2 a rfl b member
        exact List.mem_range.2 (lt_of_le_of_lt upTo (handed a rfl))
  have enough : l.length ≤ t.mallocs := by
    have fits := (List.subperm_of_subset (linked.nodup shaped.down) below).length_le
    rwa [List.length_range] at fits
  have same : t.path cur = l := listFrom_eq linked enough
  rw [same]
  exact ⟨linked, enough⟩

theorem linked (shaped : t.Shaped) (handed : t.Handed cur) : Linked t.next cur (t.path cur) :=
  (shaped.path_spec handed).1

theorem path_eq (shaped : t.Shaped) (handed : t.Handed cur) (linked : Linked t.next cur l) :
    t.path cur = l := (shaped.linked handed).unique linked

theorem nodup (shaped : t.Shaped) (handed : t.Handed cur) : (t.path cur).Nodup :=
  (shaped.linked handed).nodup shaped.down

theorem lt_of_mem (shaped : t.Shaped) (handed : t.Handed cur) {a : Nat} (member : a ∈ t.path cur) :
    a < t.mallocs := by
  cases cur with
  | none => cases shaped.path_eq handed .nil ▸ member
  | some b =>
      have upTo := ((shaped.linked handed).sorted shaped.down).2 b rfl a member
      exact lt_of_le_of_lt upTo (handed b rfl)

theorem handed_next (shaped : t.Shaped) {a : Nat} (below : a < t.mallocs) :
    t.Handed (t.next a) :=
  fun b after => (shaped.down a b after).trans below

theorem path_some (shaped : t.Shaped) {a : Nat} (below : a < t.mallocs) :
    t.path (some a) = a :: t.path (t.next a) :=
  shaped.path_eq (by rintro _ ⟨⟩; exact below) (.cons (shaped.linked (shaped.handed_next below)))

theorem lt_of_mem_chain (shaped : t.Shaped) {a i : Nat} (member : a ∈ t.chain i) : a < t.mallocs :=
  shaped.lt_of_mem (shaped.heads i) member

/-- A walk is the same in another memory that has the same links along it. -/
theorem path_congr {t' : NodeTable} (shaped : t.Shaped) (shaped' : t'.Shaped)
    (handed : t.Handed cur) (more : t.mallocs ≤ t'.mallocs)
    (same : ∀ a ∈ t.path cur, t'.next a = t.next a) : t'.path cur = t.path cur :=
  shaped'.path_eq (fun a is => (handed a is).trans_le more) ((shaped.linked handed).congr same)

theorem walk_eq (shaped : t.Shaped) (handed : t.Handed cur) (key : Nat) :
    t.walk key cur =
      some (walked (t.hit key) (t.path cur), t.valueIn key (t.path cur)) :=
  getLoop_eq (shaped.linked handed) (shaped.path_spec handed).2

end Shaped

end

end NodeTable

end Mixdk
