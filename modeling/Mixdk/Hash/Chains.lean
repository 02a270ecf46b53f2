/-
# Hash.Chains -- what each operation does to the chains

A put makes a node in front of its bucket's chain.  A delete takes the first node with its key
out of the chain (`delete_cases`): the head by moving the bucket's pointer, another one by
unlinking it from the node before.  A pop takes the head.

`NodeTable.Sound` holds of every table these make from an empty one: the chains are of nodes
not given back, each in the bucket of its key, and a positive counter has a node.  On such
tables the operations are those of `Core.Hash` (`hash_put`, `hash_delete`, `hash_pop`).
-/
import Mixdk.Hash.Heap

namespace Mixdk

set_option autoImplicit false

open LinkedList

namespace NodeTable

variable {t : NodeTable} {cur : Option Nat} {p a i : Nat}

/-! ## Links and paths -/

@[simp] theorem path_setBucket (node : BucketNode) : (t.setBucket i node).path = t.path := rfl

theorem chain_setBucket (node : BucketNode) :
    (t.setBucket i node).chain = Function.update t.chain i (t.path node.list) := by
  funext j
  by_cases at_ : j = i
  · subst at_
    simp [chain, setBucket, path]
  · simp [chain, setBucket, path, Function.update_of_ne at_]

theorem next_put (key value : Nat) :
    (t.put key value).next =
      Function.update t.next t.mallocs (t.hashNodes (mixHashHash key t.hashSize)).list := by
  funext b
  unfold next put
  by_cases new : b = t.mallocs
  · subst new
    simp
  · simp [Function.update_of_ne new]

theorem next_unlink : (t.unlink p a).next = Function.update t.next p (t.next a) := by
  funext b
  unfold next unlink
  by_cases at_ : b = p
  · subst at_
    simp
  · simp [Function.update_of_ne at_]

theorem entry_unlink (b : Nat) : (t.unlink p a).entry b = t.entry b := by
  unfold entry unlink
  by_cases at_ : b = p
  · subst at_
    simp
  · simp [Function.update_of_ne at_]

theorem entry_put (key value : Nat) {b : Nat} (old : b < t.mallocs) :
    (t.put key value).entry b = t.entry b := by
  simp [entry, put, Function.update_of_ne (Nat.ne_of_lt old)]

namespace Shaped

theorem setBucket (shaped : t.Shaped) {node : BucketNode} (handed : t.Handed node.list) :
    (t.setBucket i node).Shaped where
  down := shaped.down
  heads := by
    intro j
    rw [show (t.setBucket i node).hashNodes = Function.update t.hashNodes i node from rfl,
      Function.update_apply]
    split
    next => exact handed
    next => exact shaped.heads j

theorem put (shaped : t.Shaped) (key value : Nat) : (t.put key value).Shaped where
  down := by
    intro b c after
    rw [next_put, Function.update_apply] at after
    split at after
    next new => exact new ▸ shaped.heads _ c after
    next => exact shaped.down b c after
  heads := by
    intro j b is
    by_cases at_ : j = mixHashHash key t.hashSize
    · subst at_
      simp only [NodeTable.put, Function.update_self, Option.some.injEq] at is
      exact is ▸ Nat.lt_succ_self _
    · simp only [NodeTable.put, Function.update_of_ne at_] at is
      exact (shaped.heads j b is).trans (Nat.lt_succ_self _)

theorem unlink (shaped : t.Shaped) (after : t.next p = some a) : (t.unlink p a).Shaped where
  down := by
    intro b c is
    rw [next_unlink, Function.update_apply] at is
    split at is
    next at_ => exact at_ ▸ (shaped.down a c is).trans (shaped.down p a after)
    next => exact shaped.down b c is
  heads := shaped.heads

/-- A put leaves every walk as it was. -/
theorem path_put (shaped : t.Shaped) (handed : t.Handed cur) (key value : Nat) :
    (t.put key value).path cur = t.path cur := by
  refine shaped.path_congr (shaped.put key value) handed (Nat.le_succ _) fun b member => ?_
  rw [next_put, Function.update_of_ne (Nat.ne_of_lt (shaped.lt_of_mem handed member))]

theorem chain_put (shaped : t.Shaped) (key value : Nat) :
    (t.put key value).chain =
      Function.update t.chain (mixHashHash key t.hashSize)
        (t.mallocs :: t.chain (mixHashHash key t.hashSize)) := by
  have shaped' := shaped.put key value
  funext j
  by_cases at_ : j = mixHashHash key t.hashSize
  · subst at_
    rw [Function.update_self]
    have head : (t.put key value).chain (mixHashHash key t.hashSize) =
        (t.put key value).path (some t.mallocs) := by
      simp [chain, NodeTable.put]
    rw [head, shaped'.path_some (Nat.lt_succ_self _), next_put, Function.update_self,
      shaped.path_put (shaped.heads _)]
    rfl
  · rw [Function.update_of_ne at_, chain, chain, ← shaped.path_put (shaped.heads j) key value]
    simp [NodeTable.put, Function.update_of_ne at_]

/-- Unlinking leaves a walk that does not go through `p`. -/
theorem path_unlink_of_not_mem (shaped : t.Shaped) (after : t.next p = some a)
    (handed : t.Handed cur) (apart : p ∉ t.path cur) : (t.unlink p a).path cur = t.path cur := by
  refine shaped.path_congr (shaped.unlink after) handed le_rfl fun b member => ?_
  rw [next_unlink, Function.update_of_ne (ne_of_mem_of_not_mem member apart)]

/-- Unlinking takes one node out of a walk through `p`. -/
theorem path_unlink_of_split (shaped : t.Shaped) (after : t.next p = some a)
    (handed : t.Handed cur) {front back : List Nat} (split : t.path cur = front ++ p :: a :: back) :
    (t.unlink p a).path cur = front ++ p :: back := by
  refine (shaped.unlink after).path_eq handed ?_
  rw [next_unlink]
  exact (split ▸ shaped.linked handed).unlink (split ▸ shaped.nodup handed)

theorem split_of_mem (shaped : t.Shaped) (after : t.next p = some a) (handed : t.Handed cur)
    (member : p ∈ t.path cur) : ∃ front back, t.path cur = front ++ p :: a :: back :=
  (shaped.linked handed).split_at member after

/-- The links of two nodes next to each other. -/
theorem next_of_split (shaped : t.Shaped) (handed : t.Handed cur) {front back : List Nat}
    (split : t.path cur = front ++ p :: a :: back) : t.next p = some a :=
  (split ▸ shaped.linked handed).after.head

theorem path_next (shaped : t.Shaped) (handed : t.Handed cur) {front back : List Nat}
    (split : t.path cur = front ++ a :: back) : t.path (t.next a) = back := by
  have below : a < t.mallocs := shaped.lt_of_mem handed (by rw [split]; simp)
  exact shaped.path_eq (shaped.handed_next below) (split ▸ shaped.linked handed).after

theorem rest_of_split (shaped : t.Shaped) (handed : t.Handed cur) {front back : List Nat}
    (split : t.path cur = front ++ p :: a :: back) : t.path (t.next a) = back := by
  rw [List.append_cons] at split
  exact shaped.path_next handed split

end Shaped

/-! ## Deletes and pops -/

/-- What a delete of a key in bucket `i` finds and does. -/
inductive Deletion (t : NodeTable) (key i : Nat) : NodeTable → Prop
  | absent (searched : t.search key = some none)
      (others : ∀ b ∈ t.chain i, (t.nodes b).key ≠ key) :
      Deletion t key i (t.setBucket i { t.hashNodes i with len := (t.hashNodes i).len - 1 })
  | head {a : Nat} {back : List Nat} (searched : t.search key = some (some (none, a)))
      (split : t.chain i = a :: back) (here : (t.nodes a).key = key) :
      Deletion t key i (t.setBucket i { len := (t.hashNodes i).len - 1, list := t.next a })
  | middle {p a : Nat} {front back : List Nat} (searched : t.search key = some (some (some p, a)))
      (split : t.chain i = front ++ p :: a :: back)
      (before : ∀ b ∈ front ++ [p], (t.nodes b).key ≠ key) (here : (t.nodes a).key = key) :
      Deletion t key i
        ((t.unlink p a).setBucket i { t.hashNodes i with len := (t.hashNodes i).len - 1 })

theorem delete_cases (shaped : t.Shaped) (key : Nat) :
    ∃ t', t.delete key = some t' ∧ t.Deletion key (mixHashHash key t.hashSize) t' := by
  obtain ⟨linked, enough⟩ := shaped.path_spec (shaped.heads (mixHashHash key t.hashSize))
  by_cases present : ∃ a ∈ t.chain (mixHashHash key t.hashSize), (t.nodes a).key = key
  · obtain ⟨_, member, here⟩ := present
    obtain ⟨a, front, back, before, here, split, _⟩ := List.exists_of_eraseP
      (p := t.hit key) member (hit_iff.2 here)
    replace here := hit_iff.1 here
    replace before : ∀ b ∈ front, (t.nodes b).key ≠ key := fun b member =>
      mt hit_iff.2 (before b member)
    have found : t.search key = some (some (front.getLast?.or none, a)) := by
      rw [chain] at split
      rw [split] at linked enough
      exact deleteLoop_some linked enough before here
    rcases List.eq_nil_or_concat front with rfl | ⟨front, p, rfl⟩
    · refine ⟨_, ?_, .head found split here⟩
      rw [delete, found]
      rfl
    · rw [List.concat_eq_append] at *
      rw [List.getLast?_concat] at found
      refine ⟨_, ?_, .middle found (by simpa using split) before here⟩
      rw [delete, found]
      rfl
  · push Not at present
    have found : t.search key = some none := deleteLoop_none linked enough present
    refine ⟨_, ?_, .absent found present⟩
    rw [delete, found]
    rfl

namespace Deletion

variable {t' : NodeTable} {key : Nat}

theorem hashSize (deletion : t.Deletion key i t') : t'.hashSize = t.hashSize := by
  cases deletion <;> rfl

theorem mallocs (deletion : t.Deletion key i t') : t'.mallocs = t.mallocs := by
  cases deletion <;> rfl

theorem len (deletion : t.Deletion key i t') (j : Nat) :
    (t'.hashNodes j).len = if j = i then (t.hashNodes i).len - 1 else (t.hashNodes j).len := by
  cases deletion <;> simp only [setBucket, unlink, Function.update_apply] <;> split <;> rfl

theorem entry (deletion : t.Deletion key i t') (b : Nat) : t'.entry b = t.entry b := by
  cases deletion with
  | absent => rfl
  | head => rfl
  | middle => exact entry_unlink b

theorem shaped (deletion : t.Deletion key i t') (shaped : t.Shaped) : t'.Shaped := by
  cases deletion with
  | absent => exact shaped.setBucket (shaped.heads i)
  | head _ split =>
      exact shaped.setBucket (shaped.handed_next (shaped.lt_of_mem_chain (split ▸ List.mem_cons_self)))
  | middle _ split =>
      exact (shaped.unlink (shaped.next_of_split (shaped.heads i) split)).setBucket
        (shaped.heads i)

end Deletion

/-! ## Sound tables -/

/-- What the operations keep. -/
structure Sound (t : NodeTable) : Prop where
  shaped : t.Shaped
  placed : ∀ i, ∀ a ∈ t.chain i, mixHashHash (t.nodes a).key t.hashSize = i
  held : ∀ i, ∀ a ∈ t.chain i, t.freed a = false
  fresh : ∀ a, t.mallocs ≤ a → t.freed a = false

theorem eraseP_middle {key : Nat} {front back : List Nat}
    (before : ∀ b ∈ front ++ [p], (t.nodes b).key ≠ key) (here : (t.nodes a).key = key) :
    (front ++ p :: a :: back).eraseP (t.hit key) = front ++ p :: back := by
  have passed : ∀ b ∈ front ++ [p], ¬ t.hit key b := fun b member => mt hit_iff.1 (before b member)
  rw [List.append_cons, List.eraseP_append_right _ passed, List.eraseP_cons_of_pos (hit_iff.2 here)]
  simp

/-- A delete takes the first node with its key out of its chain. -/
theorem Deletion.chain {t' : NodeTable} {key : Nat} (deletion : t.Deletion key i t')
    (sound : t.Sound) :
    t'.chain = Function.update t.chain i ((t.chain i).eraseP (t.hit key)) := by
  have shaped := sound.shaped
  cases deletion with
  | absent _ others =>
      have none_ : ∀ b ∈ t.chain i, ¬ t.hit key b := fun b member => mt hit_iff.1 (others b member)
      rw [chain_setBucket, List.eraseP_of_forall_not none_]
      rfl
  | @head a back _ split here =>
      rw [chain_setBucket, split, List.eraseP_cons_of_pos (hit_iff.2 here),
        shaped.path_next (shaped.heads i) (show t.path _ = [] ++ a :: back from split)]
  | @middle p a front back _ split before here =>
      have after := shaped.next_of_split (shaped.heads i) split
      rw [split, eraseP_middle before here, chain_setBucket]
      funext j
      rw [Function.update_apply, Function.update_apply]
      split
      next => exact shaped.path_unlink_of_split after (shaped.heads i) split
      next other =>
        refine shaped.path_unlink_of_not_mem after (shaped.heads j) fun member => other ?_
        have here : p ∈ t.chain i := by rw [split]; simp
        rw [← sound.placed j p member, sound.placed i p here]

theorem chain_takeHead (sound : t.Sound) {back : List Nat} (split : t.chain i = a :: back) :
    (t.takeHead i a).chain = Function.update t.chain i back := by
  have rest := sound.shaped.path_next (sound.shaped.heads i)
    (show t.path _ = [] ++ a :: back from split)
  rw [← rest]
  exact chain_setBucket (t := t) { len := (t.hashNodes i).len - 1, list := t.next a }

/-- What a pop of bucket `i` can be. -/
inductive Pop (t : NodeTable) (i : Nat) : Option (MixKv × NodeTable) → Prop
  | marker (zero : ¬ 0 < (t.hashNodes i).len) : Pop t i (some ((NO_ENTRY, NO_ENTRY), t))
  /-- The head of the bucket is taken. -/
  | head {a : Nat} {back : List Nat} (positive : 0 < (t.hashNodes i).len)
      (split : t.chain i = a :: back) : Pop t i (some (t.entry a, t.takeHead i a))
  /-- The counter counts a node that is not there. -/
  | null (positive : 0 < (t.hashNodes i).len) (empty : t.chain i = []) : Pop t i none

theorem Shaped.pop_cases (shaped : t.Shaped) (i : Nat) : t.Pop i (t.pop i) := by
  unfold pop
  by_cases positive : 0 < (t.hashNodes i).len
  · rw [if_pos positive]
    cases head : (t.hashNodes i).list with
    | none =>
        refine .null positive ?_
        rw [chain, head]
        exact shaped.path_eq nofun .nil
    | some a =>
        have split : t.chain i = a :: t.path (t.next a) := by
          rw [chain, head, shaped.path_some (shaped.heads i a head)]
        exact .head positive split
  · rw [if_neg positive]
    exact .marker positive

namespace Sound

theorem init (size : Nat) : (init size).Sound where
  shaped := ⟨nofun, fun _ => nofun⟩
  placed := fun _ _ => nofun
  held := fun _ _ => nofun
  fresh := fun _ _ => rfl

theorem put (sound : t.Sound) (key value : Nat) : (t.put key value).Sound := by
  have shaped := sound.shaped
  have keys : ∀ {b}, b < t.mallocs → ((t.put key value).nodes b).key = (t.nodes b).key :=
    fun old => congrArg Prod.fst (entry_put key value old)
  refine ⟨shaped.put key value, fun j b member => ?_, fun j b member => ?_, fun b new => ?_⟩
  · rw [shaped.chain_put, Function.update_apply] at member
    split at member
    next at_ =>
      rcases List.mem_cons.1 member with rfl | old
      · rw [at_]
        simp [NodeTable.put]
      · rw [keys (shaped.lt_of_mem_chain old), at_]
        exact sound.placed _ b old
    next =>
      rw [keys (shaped.lt_of_mem_chain member)]
      exact sound.placed j b member
  · rw [shaped.chain_put, Function.update_apply] at member
    split at member
    next =>
      rcases List.mem_cons.1 member with rfl | old
      · exact sound.fresh _ le_rfl
      · exact sound.held _ b old
    next => exact sound.held j b member
  · exact sound.fresh b (Nat.le_of_succ_le new)

/-- Taking nodes out of a chain. -/
theorem shrink (sound : t.Sound) {t' : NodeTable} {l : List Nat} (shaped' : t'.Shaped)
    (size : t'.hashSize = t.hashSize) (mallocs : t'.mallocs = t.mallocs)
    (entries : ∀ b, t'.entry b = t.entry b) (chains : t'.chain = Function.update t.chain i l)
    (sub : l ⊆ t.chain i)
    (freed : ∀ b, t'.freed b = true → t.freed b = true ∨ b ∈ t.chain i ∧ b ∉ l) : t'.Sound := by
  have inside : ∀ {j b}, b ∈ t'.chain j → b ∈ t.chain j := by
    intro j b member
    rw [chains, Function.update_apply] at member
    split at member
    next at_ => exact at_ ▸ sub member
    next => exact member
  refine ⟨shaped', fun j b member => ?_, fun j b member => ?_, fun b new => ?_⟩
  · rw [size, show (t'.nodes b).key = (t.nodes b).key from congrArg Prod.fst (entries b)]
    exact sound.placed j b (inside member)
  · refine Bool.eq_false_iff.2 fun gone => ?_
    rcases freed b gone with before | ⟨there, out⟩
    · rw [sound.held j b (inside member)] at before
      cases before
    · have at_ : j = i := by rw [← sound.placed j b (inside member), sound.placed i b there]
      rw [chains, at_, Function.update_self] at member
      exact out member
  · rw [mallocs] at new
    refine Bool.eq_false_iff.2 fun gone => ?_
    rcases freed b gone with before | ⟨there, _⟩
    · rw [sound.fresh b new] at before
      cases before
    · exact absurd (sound.shaped.lt_of_mem_chain there) (Nat.not_lt.2 new)

end Sound

theorem Deletion.freed {t' : NodeTable} {key b : Nat} (deletion : t.Deletion key i t')
    (shaped : t.Shaped) (gone : t'.freed b = true) :
    t.freed b = true ∨ b ∈ t.chain i ∧ b ∉ (t.chain i).eraseP (t.hit key) := by
  cases deletion with
  | absent => exact .inl gone
  | head => exact .inl gone
  | @middle p a front back _ split before here =>
      have distinct : (t.chain i).Nodup := shaped.nodup (shaped.heads i)
      simp only [setBucket, NodeTable.unlink, Function.update_apply] at gone
      split at gone
      next at_ =>
        rw [split] at distinct
        rw [at_, split, eraseP_middle before here]
        refine .inr ⟨by simp, fun member => ?_⟩
        rw [List.append_cons] at distinct member
        exact (List.nodup_middle.1 distinct).notMem member
      next => exact .inl gone

theorem Sound.delete (sound : t.Sound) {t' : NodeTable} {key : Nat}
    (deletion : t.Deletion key i t') : t'.Sound :=
  sound.shrink (deletion.shaped sound.shaped) deletion.hashSize deletion.mallocs deletion.entry
    (deletion.chain sound) List.eraseP_subset fun _ => deletion.freed sound.shaped

theorem Sound.takeHead (sound : t.Sound) {back : List Nat} (split : t.chain i = a :: back) :
    (t.takeHead i a).Sound := by
  have shaped := sound.shaped
  have distinct : (t.chain i).Nodup := shaped.nodup (shaped.heads i)
  have below : a < t.mallocs := shaped.lt_of_mem_chain (split ▸ List.mem_cons_self)
  have shaped' : (t.setBucket i { len := (t.hashNodes i).len - 1, list := t.next a }).Shaped :=
    shaped.setBucket (shaped.handed_next below)
  refine sound.shrink (i := i) (l := back) ⟨shaped'.down, shaped'.heads⟩ rfl rfl (fun _ => rfl)
    (chain_takeHead sound split) ?_ fun b gone => ?_
  · rw [split]
    exact List.subset_cons_self a back
  · simp only [NodeTable.takeHead, Function.update_apply] at gone
    split at gone
    next at_ =>
      rw [split] at distinct ⊢
      exact .inr ⟨at_ ▸ List.mem_cons_self, at_ ▸ (List.nodup_cons.1 distinct).1⟩
    next => exact .inl gone

/-! ## The table in memory is a table of `Core.Hash` -/

theorem len_takeHead (t : NodeTable) (i a j : Nat) : ((t.takeHead i a).hashNodes j).len =
    if j = i then (t.hashNodes i).len - 1 else (t.hashNodes j).len := by
  simp only [takeHead, setBucket, Function.update_apply]
  split <;> rfl

theorem len_put (t : NodeTable) (key value j : Nat) : ((t.put key value).hashNodes j).len =
    if j = mixHashHash key t.hashSize then (t.hashNodes (mixHashHash key t.hashSize)).len + 1
    else (t.hashNodes j).len := by
  simp only [put, Function.update_apply]
  split <;> rfl

theorem hash_eq_setNode {t' : NodeTable} {l : List Nat} {n : Int32}
    (chains : t'.chain = Function.update t.chain i l) (size : t'.hashSize = t.hashSize)
    (entries : ∀ j, ∀ b ∈ t.chain j, t'.entry b = t.entry b)
    (lens : ∀ j, (t'.hashNodes j).len = if j = i then n else (t.hashNodes j).len) :
    t'.hash = t.hash.setNode i { len := n, list := l.map t'.entry } := by
  have nodes : t'.hash.hashNodes = Function.update t.hash.hashNodes i ⟨n, l.map t'.entry⟩ := by
    funext j
    rw [Function.update_apply]
    simp only [hash, chains, lens, Function.update_apply]
    split
    next => rfl
    next => rw [List.map_congr_left (entries j)]
  unfold Hash.setNode
  rw [← nodes]
  simp only [hash, size]

theorem hash_init (size : Nat) : (init size).hash = mixHashInit size := rfl

theorem hash_put (shaped : t.Shaped) (key value : Nat) :
    (t.put key value).hash = mixHashPut t.hash key value := by
  have entries : ∀ j, ∀ b ∈ t.chain j, (t.put key value).entry b = t.entry b :=
    fun j b member => entry_put key value (shaped.lt_of_mem_chain member)
  have after := hash_eq_setNode (n := (t.hashNodes (mixHashHash key t.hashSize)).len + 1)
    (shaped.chain_put key value) rfl entries (len_put t key value)
  rw [after, List.map_cons, List.map_congr_left (entries _)]
  simp [mixHashPut, hash, entry, put]

theorem hash_delete (sound : t.Sound) (key : Nat) :
    ∃ t', t.delete key = some t' ∧ t'.hash = mixHashDelete t.hash key := by
  obtain ⟨t', deleted, deletion⟩ := delete_cases sound.shaped key
  refine ⟨t', deleted, ?_⟩
  rw [hash_eq_setNode (deletion.chain sound) deletion.hashSize (fun _ b _ => deletion.entry b)
    deletion.len, funext deletion.entry]
  have erased := List.eraseP_map (f := t.entry) (p := fun kv => kv.1 == key)
    (l := t.chain (mixHashHash key t.hashSize))
  exact congrArg (fun l => t.hash.setNode _ { len := _, list := l }) erased.symm

theorem hash_pop (sound : t.Sound) (i : Nat) :
    (t.pop i).map (fun answer => (answer.1, answer.2.hash)) = mixHashGetEntryByIdx t.hash i := by
  generalize popped : t.pop i = answer
  have pop := sound.shaped.pop_cases i
  rw [popped] at pop
  cases pop with
  | marker zero =>
      rw [getEntryByIdx_of_empty (h := t.hash) zero]
      rfl
  | @head a back positive split =>
      have chain : t.hash.chain i = t.entry a :: back.map t.entry := by
        simp only [hash, Hash.chain, split, List.map_cons]
      rw [getEntryByIdx_of_cons (h := t.hash) positive chain]
      have after := hash_eq_setNode (n := (t.hashNodes i).len - 1) (chain_takeHead sound split) rfl
        (fun _ _ _ => rfl) (len_takeHead t i a)
      exact congrArg (fun h => some (t.entry a, h)) after
  | null positive empty =>
      rw [mixHashGetEntryByIdx]
      simp [hash, positive, empty]

/-- The walk from a bucket's own pointer answers as `mix_hash_get` of `Core.Hash`. -/
theorem get_hash (t : NodeTable) (key : Nat) :
    mixHashGet t.hash key = t.valueIn key (t.chain (mixHashHash key t.hashSize)) := by
  have found : ∀ l : List Nat, (l.map t.entry).lookup key =
      (l.find? (t.hit key)).map fun a => (t.nodes a).value := by
    intro l
    induction l with
    | nil => rfl
    | cons a l ih =>
        rw [List.map_cons, List.lookup_cons, List.find?_cons, ih]
        by_cases here : (t.nodes a).key = key
        · rw [hit_iff.2 here, entry, here]
          simp
        · rw [Bool.eq_false_iff.2 (mt hit_iff.1 here), entry, beq_eq_false_iff_ne.2 (Ne.symm here)]
  rw [mixHashGet, valueIn]
  simp only [hash]
  rw [found]
  cases (t.chain (mixHashHash key t.hashSize)).find? (t.hit key) <;> rfl

end NodeTable

end Mixdk
