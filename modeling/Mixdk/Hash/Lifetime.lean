/-
# Hash.Lifetime -- the memory of a table, from mix_hash_init to mix_hash_free

What the calls of one table do to its heap cells: the table itself, its array of buckets, a lock
for each bucket, and the nodes.  Each call gives the log of its allocations, accesses and frees
in the order of the code.

`Lived` holds after every history of fewer than 2^31 calls: no counter has gone round and counts
nodes that are not there (`Tallied`), the log has run without an error, and what is
allocated are the cells made by `mix_hash_init`, the nodes in the chains, and the nodes that were
deleted as the first of their bucket (`dropped`), which `mix_hash_delete` unlinks and does not
free.  `mix_hash_free` walks every chain, so it frees all the others, each once
(`mixHash_lifetime`).
-/
import Mixdk.Hash.Chains
import Mixdk.Lib.HeapLog
import Mixdk.Lib.ChainTable
import Mathlib.Data.Finset.Lattice.Lemmas

namespace Mixdk

set_option autoImplicit false

open ChainTable HeapLog

/-- What `mix_hash.c` allocates. -/
inductive HashCell
  | table
  | hashNodes
  | rwLock (i : Nat)
  | node (a : Nat)
  deriving DecidableEq

/-- The calls on a table between `mix_hash_init` and `mix_hash_free`. -/
inductive TableCall
  | put (key value : Nat)
  | get (key : Nat)
  | delete (key : Nat)
  | entryByIdx (idx : Nat)

/-- `mix_hash_get_entry_by_idx` is given the number of a bucket. -/
def TableCall.InBounds (size : Nat) : TableCall → Prop
  | .entryByIdx idx => idx < size
  | _ => True

/-- A table with what was done to its memory so far. -/
structure TableLife where
  table : NodeTable
  log : List (Event HashCell)
  /-- The nodes a delete unlinked without giving them back. -/
  dropped : List Nat

/-! ## The accesses of each call -/

/-- `hash->hash_nodes[i]`, and the lock taken or given back in it. -/
def bucketAccess (i : Nat) : List (Event HashCell) :=
  [.use .table, .use .hashNodes, .use (.rwLock i)]

def nodeAccess (l : List Nat) : List (Event HashCell) := (l.map HashCell.node).map .use

/-- `mix_hash_init`, when no allocation fails. -/
def initLog (size : Nat) : List (Event HashCell) :=
  [.malloc .table, .use .table, .malloc .hashNodes] ++
    (List.range size).flatMap fun i =>
      [.use .table, .use .hashNodes, .malloc (.rwLock i), .use (.rwLock i)]

/-- `mix_hash_put`. -/
def putLog (t : NodeTable) (key : Nat) : List (Event HashCell) :=
  let hashKey := mixHashHash key t.hashSize
  [.use .table, .malloc (.node t.mallocs), .use (.node t.mallocs)] ++ bucketAccess hashKey ++
    [.use (.node t.mallocs)] ++ bucketAccess hashKey

/-- `mix_hash_get`, which goes through the nodes `l`. -/
def getLog (t : NodeTable) (key : Nat) (l : List Nat) : List (Event HashCell) :=
  let hashKey := mixHashHash key t.hashSize
  bucketAccess hashKey ++ nodeAccess l ++ [.use (.rwLock hashKey)]

/-- What `mix_hash_delete` does when its search has ended at `found`. -/
def unlinkLog : Option (Option Nat × Nat) → List (Event HashCell)
  | none => []
  | some (none, cur) => [.use .table, .use .hashNodes, .use (.node cur)]
  | some (some prev, cur) => [.use (.node cur), .use (.node prev), .free (.node cur)]

/-- `mix_hash_delete`, which goes through the nodes `l` as a get does. -/
def deleteLog (t : NodeTable) (key : Nat) (l : List Nat) (found : Option (Option Nat × Nat)) :
    List (Event HashCell) :=
  let hashKey := mixHashHash key t.hashSize
  bucketAccess hashKey ++ nodeAccess l ++ unlinkLog found ++ bucketAccess hashKey

/-- `mix_hash_get_entry_by_idx`, which takes no lock. -/
def popLog (t : NodeTable) (idx : Nat) : List (Event HashCell) :=
  [.use .table, .use .hashNodes] ++
    if 0 < (t.hashNodes idx).len then
      ((t.hashNodes idx).list.toList.flatMap fun cur =>
        [.use (.node cur), .use (.node cur), .free (.node cur)]) ++ [.use .hashNodes]
    else []

namespace TableLife

/-- `mix_hash_init`. -/
def init (size : Nat) : TableLife :=
  { table := NodeTable.init size
    log := initLog size
    dropped := [] }

/-- One call; `none` when it goes out of bounds or through NULL, or its loop does not end. -/
def call (s : TableLife) : TableCall → Option TableLife
  | .put key value =>
      some { s with table := s.table.put key value, log := s.log ++ putLog s.table key }
  | .get key =>
      let hashKey := mixHashHash key s.table.hashSize
      (s.table.walk key (s.table.hashNodes hashKey).list).map fun walk =>
        { s with log := s.log ++ getLog s.table key walk.1 }
  | .delete key =>
      let hashKey := mixHashHash key s.table.hashSize
      (s.table.walk key (s.table.hashNodes hashKey).list).bind fun walk =>
      (s.table.search key).bind fun found =>
      (s.table.delete key).map fun table =>
        { table := table
          log := s.log ++ deleteLog s.table key walk.1 found
          dropped := match found with
            | some (none, cur) => cur :: s.dropped
            | _ => s.dropped }
  | .entryByIdx idx =>
      if idx < s.table.hashSize then
        (s.table.pop idx).map fun answer =>
          { s with table := answer.2, log := s.log ++ popLog s.table idx }
      else none

/-- A history of calls. -/
def calls (s : TableLife) : List TableCall → Option TableLife
  | [] => some s
  | c :: cs => (s.call c).bind fun s' => s'.calls cs

end TableLife

/-! ## mix_hash_free -/

/-- The inner loop of `mix_hash_free`: it reads `next` before it frees the node. -/
def freeLoop (nodes : Nat → ListNode) : Nat → Option Nat → Option (List (Event HashCell))
  | _, none => some []
  | 0, some _ => none
  | n + 1, some cur =>
      (freeLoop nodes n (nodes cur).next).map fun rest =>
        .use (.node cur) :: .free (.node cur) :: rest

/-- The loop over the buckets. -/
def freeBuckets (t : NodeTable) : List Nat → Option (List (Event HashCell))
  | [] => some []
  | i :: is =>
      (freeLoop t.nodes t.mallocs (t.hashNodes i).list).bind fun chain =>
      (freeBuckets t is).map fun rest =>
        .use .table :: .use .hashNodes :: .free (.rwLock i) :: chain ++ rest

/-- `mix_hash_free`.  The `brtree` of a bucket is always NULL. -/
def mixHashFree (t : NodeTable) : Option (List (Event HashCell)) :=
  (freeBuckets t (List.range t.hashSize)).map fun log =>
    log ++ [.use .table, .free .hashNodes, .free .table]

/-! ## The cells of a table -/

/-- What `mix_hash_init` allocates, and the nodes `l`. -/
def tableCells (size : Nat) (l : List Nat) : Finset HashCell :=
  insert .table (insert .hashNodes (((List.range size).map .rwLock).toFinset ∪
    (l.map .node).toFinset))

section Cells

variable {size i a : Nat} {l m : List Nat} {log : List (Event HashCell)}

@[simp] theorem table_mem : .table ∈ tableCells size l := by simp [tableCells]

@[simp] theorem hashNodes_mem : .hashNodes ∈ tableCells size l := by simp [tableCells]

@[simp] theorem rwLock_mem_iff : .rwLock i ∈ tableCells size l ↔ i < size := by simp [tableCells]

@[simp] theorem node_mem_iff : .node a ∈ tableCells size l ↔ a ∈ l := by simp [tableCells]

theorem tableCells_ext (same : ∀ a, a ∈ l ↔ a ∈ m) : tableCells size l = tableCells size m := by
  ext c
  cases c <;> simp [same]

theorem insert_node : insert (.node a) (tableCells size l) = tableCells size (a :: l) := by
  ext c
  cases c <;> simp

theorem erase_node (apart : a ∉ l) :
    (tableCells size (a :: l)).erase (.node a) = tableCells size l := by
  rw [← insert_node, Finset.erase_insert (mt node_mem_iff.1 apart)]

theorem run_bucketAccess (below : i < size) :
    run (tableCells size l) (bucketAccess i ++ log) = run (tableCells size l) log := by
  simp [bucketAccess, below]

theorem run_nodeAccess (sub : m ⊆ l) :
    run (tableCells size l) (nodeAccess m ++ log) = run (tableCells size l) log := by
  refine run_uses fun c member => ?_
  obtain ⟨a, there, rfl⟩ := List.mem_map.1 member
  exact node_mem_iff.2 (sub there)

theorem run_deleteLog {t : NodeTable} {key : Nat} {found : Option (Option Nat × Nat)}
    {l' : List Nat} (below : mixHashHash key t.hashSize < size) (sub : m ⊆ l)
    (unlinks : run (tableCells size l) (unlinkLog found) = some (tableCells size l')) :
    run (tableCells size l) (deleteLog t key m found) = some (tableCells size l') := by
  rw [deleteLog, List.append_assoc, List.append_assoc, run_bucketAccess below, run_nodeAccess sub,
    run_trans unlinks, ← List.append_nil (bucketAccess _), run_bucketAccess below, run_nil]

/-- Unlinking a node that is not the head gives it back. -/
theorem run_unlinkLog {p : Nat} (apart : a ∉ l) (there : p ∈ a :: l) :
    run (tableCells size (a :: l)) (unlinkLog (some (some p, a))) = some (tableCells size l) := by
  rw [unlinkLog, run_use (by simp), run_use (node_mem_iff.2 there), run_free (by simp),
    erase_node apart, run_nil]

theorem run_initLog : run ∅ (initLog size) = some (tableCells size []) := by
  have locks : ∀ n, run (tableCells 0 []) ((List.range n).flatMap fun i =>
      [.use .table, .use .hashNodes, .malloc (.rwLock i), .use (.rwLock i)]) =
        some (tableCells n []) := by
    intro n
    induction n with
    | zero => rfl
    | succ n ih =>
        rw [List.range_succ, List.flatMap_append, run_trans ih]
        have grown : insert (.rwLock n) (tableCells n []) = tableCells (n + 1) [] := by
          ext c
          cases c with
          | rwLock i =>
              rw [Finset.mem_insert, rwLock_mem_iff, rwLock_mem_iff, HashCell.rwLock.injEq,
                Nat.lt_succ_iff_lt_or_eq, or_comm]
          | _ => simp
        simp [grown]
  have two : insert .hashNodes (insert .table ∅) = tableCells 0 [] := by
    ext c
    cases c <;> simp
  rw [← locks size, initLog, List.cons_append, run_malloc (by simp), List.cons_append,
    run_use (by simp), List.cons_append, run_malloc (by simp), two]
  rfl

end Cells

namespace NodeTable

/-- The nodes of all the chains. -/
def held (t : NodeTable) : List Nat := (List.range t.hashSize).flatMap t.chain

variable {t t' : NodeTable} {i a : Nat} {l : List Nat}

theorem mem_held (below : i < t.hashSize) (member : a ∈ t.chain i) : a ∈ t.held :=
  List.mem_flatMap.2 ⟨i, List.mem_range.2 below, member⟩

theorem held_update (below : i < t.hashSize) (chains : t'.chain = Function.update t.chain i l)
    (size : t'.hashSize = t.hashSize) :
    (t'.held ++ t.chain i).Perm (t.held ++ l) := by
  unfold held
  rw [size, chains]
  exact flatMap_update_perm t.chain l List.nodup_range (List.mem_range.2 below)

/-- Taking a node out of one chain takes it out of the nodes held. -/
theorem held_take (below : i < t.hashSize) (chains : t'.chain = Function.update t.chain i l)
    (size : t'.hashSize = t.hashSize) (off : (t.chain i).Perm (a :: l)) :
    t.held.Perm (a :: t'.held) := by
  have traded := held_update below chains size
  have moved : (t.held ++ l).Perm ((a :: t'.held) ++ l) :=
    traded.symm.trans ((off.append_left _).trans List.perm_middle)
  exact (List.perm_append_right_iff _).1 moved

theorem chain_len (len : Int32) :
    (t.setBucket i { t.hashNodes i with len := len }).chain = t.chain := by
  rw [chain_setBucket]
  exact Function.update_eq_self i t.chain

theorem Shaped.head_of_chain (shaped : t.Shaped) (split : t.chain i = a :: l) :
    (t.hashNodes i).list = some a :=
  (show LinkedList.Linked t.next _ (a :: l) from split ▸ shaped.linked (shaped.heads i)).head

theorem held_put (sound : t.Sound) (positive : 0 < t.hashSize) (key value : Nat) :
    (t.put key value).held.Perm (t.mallocs :: t.held) := by
  have below := mixHashHash_lt key positive
  have traded := held_update below (sound.shaped.chain_put key value) rfl
  exact (List.perm_append_right_iff _).1 (traded.trans List.perm_middle)

/-! ## The counters -/

/-- After `n` calls no counter is ahead of its chain. -/
structure Tallied (n : Nat) (t : NodeTable) : Prop where
  low : ∀ i, -(n : Int) ≤ (t.hashNodes i).len.toInt
  high : ∀ i, (t.hashNodes i).len.toInt ≤ n
  counts : ∀ i, (t.hashNodes i).len.toInt ≤ (t.chain i).length

namespace Tallied

variable {n : Nat}

theorem init (size : Nat) : (NodeTable.init size).Tallied 0 :=
  ⟨fun _ => le_rfl, fun _ => le_rfl, fun _ => le_rfl⟩

theorem mono (tallied : t.Tallied n) : t.Tallied (n + 1) :=
  ⟨fun i => by have := tallied.low i; omega, fun i => by have := tallied.high i; omega,
    tallied.counts⟩

/-- Bucket `i` gets a node and one more, or one less and at most one node less. -/
theorem bucket (tallied : t.Tallied n) (short : n + 1 < 2 ^ 31) {len : Int32}
    (lens : ∀ j, (t'.hashNodes j).len = if j = i then len else (t.hashNodes j).len)
    (chains : t'.chain = Function.update t.chain i l)
    (moved : len = (t.hashNodes i).len + 1 ∧ l.length = (t.chain i).length + 1 ∨
      len = (t.hashNodes i).len - 1 ∧ (t.chain i).length ≤ l.length + 1) : t'.Tallied (n + 1) := by
  have low := tallied.low i
  have high := tallied.high i
  have counts := tallied.counts i
  have here : -(n + 1 : Int) ≤ len.toInt ∧ len.toInt ≤ n + 1 ∧ len.toInt ≤ l.length := by
    rcases moved with ⟨rfl, length⟩ | ⟨rfl, length⟩
    · rw [toInt_add_one (by omega), length]
      omega
    · rw [toInt_sub_one (by omega)]
      omega
  refine ⟨fun j => ?_, fun j => ?_, fun j => ?_⟩
  all_goals rw [lens j]
  · split
    next => exact here.1
    next => exact tallied.mono.low j
  · split
    next => exact here.2.1
    next => exact tallied.mono.high j
  · rw [chains, Function.update_apply]
    split
    next => exact here.2.2
    next => exact tallied.counts j

end Tallied

end NodeTable

/-! ## What holds after every history -/

/-- What every call keeps. -/
structure Lived (s : TableLife) : Prop where
  sound : s.table.Sound
  positive : 0 < s.table.hashSize
  distinct : (s.table.held ++ s.dropped).Nodup
  handed : ∀ a ∈ s.table.held ++ s.dropped, a < s.table.mallocs
  runs : run ∅ s.log = some (tableCells s.table.hashSize (s.table.held ++ s.dropped))

namespace Lived

variable {s : TableLife}

theorem init {size : Nat} (positive : 0 < size) : Lived (TableLife.init size) := by
  have none_ : (NodeTable.init size).held = [] := by
    refine List.eq_nil_iff_forall_not_mem.2 fun a member => ?_
    obtain ⟨i, -, there⟩ := List.mem_flatMap.1 member
    cases there
  refine ⟨.init size, positive, ?_, ?_, ?_⟩ <;> simp [TableLife.init, none_, run_initLog]
  rfl

theorem put (lived : Lived s) (key value : Nat) :
    ∃ s', s.call (.put key value) = some s' ∧ Lived s' ∧ s'.table.hashSize = s.table.hashSize := by
  refine ⟨_, rfl, ?_, rfl⟩
  have below := mixHashHash_lt key lived.positive
  have held : ((s.table.put key value).held ++ s.dropped).Perm
      (s.table.mallocs :: (s.table.held ++ s.dropped)) :=
    (NodeTable.held_put lived.sound lived.positive key value).append_right s.dropped
  have new : s.table.mallocs ∉ s.table.held ++ s.dropped := fun member =>
    lt_irrefl _ (lived.handed _ member)
  refine ⟨lived.sound.put key value, lived.positive,
    held.nodup_iff.2 (List.nodup_cons.2 ⟨new, lived.distinct⟩), fun a member => ?_, ?_⟩
  · rcases List.mem_cons.1 (held.mem_iff.1 member) with rfl | old
    · exact Nat.lt_succ_self _
    · exact (lived.handed a old).trans (Nat.lt_succ_self _)
  · have cells : tableCells s.table.hashSize (s.table.mallocs :: (s.table.held ++ s.dropped)) =
        tableCells s.table.hashSize ((s.table.put key value).held ++ s.dropped) :=
      tableCells_ext fun a => held.symm.mem_iff
    have logged : run (tableCells s.table.hashSize (s.table.held ++ s.dropped))
        (putLog s.table key) =
        some (tableCells s.table.hashSize (s.table.mallocs :: (s.table.held ++ s.dropped))) := by
      simp [putLog, bucketAccess, insert_node, new, below]
    exact (run_trans lived.runs).trans (logged.trans (congrArg some cells))

/-- The walk of a get or a delete is through nodes that the table holds. -/
theorem walk (lived : Lived s) (key : Nat) :
    ∃ walk, s.table.walk key (s.table.hashNodes (mixHashHash key s.table.hashSize)).list =
      some walk ∧ walk.1 ⊆ s.table.held ++ s.dropped :=
  ⟨_, lived.sound.shaped.walk_eq (lived.sound.shaped.heads _) key, fun _ member =>
    List.mem_append_left _ (NodeTable.mem_held (mixHashHash_lt key lived.positive)
      (LinkedList.walked_subset member))⟩

/-- A call that gives nothing back. -/
theorem keep (lived : Lived s) {table : NodeTable} {log : List (Event HashCell)}
    {dropped : List Nat} (sound : table.Sound) (size : table.hashSize = s.table.hashSize)
    (mallocs : table.mallocs = s.table.mallocs)
    (same : (s.table.held ++ s.dropped).Perm (table.held ++ dropped))
    (runs : run (tableCells s.table.hashSize (s.table.held ++ s.dropped)) log =
      some (tableCells s.table.hashSize (s.table.held ++ s.dropped))) :
    Lived { table := table, log := s.log ++ log, dropped := dropped } := by
  refine ⟨sound, size ▸ lived.positive, same.nodup_iff.1 lived.distinct, fun b member => ?_, ?_⟩
  · exact mallocs ▸ lived.handed b (same.mem_iff.2 member)
  · rw [run_trans lived.runs, runs, size]
    exact congrArg some (tableCells_ext fun b => same.mem_iff)

/-- A call that gives the node `a` back. -/
theorem give (lived : Lived s) {table : NodeTable} {log : List (Event HashCell)} {a : Nat}
    (sound : table.Sound) (size : table.hashSize = s.table.hashSize)
    (mallocs : table.mallocs = s.table.mallocs) (off : s.table.held.Perm (a :: table.held))
    (runs : a ∉ table.held ++ s.dropped →
      run (tableCells s.table.hashSize (a :: (table.held ++ s.dropped))) log =
        some (tableCells s.table.hashSize (table.held ++ s.dropped))) :
    Lived { s with table := table, log := s.log ++ log } := by
  have split : (s.table.held ++ s.dropped).Perm (a :: (table.held ++ s.dropped)) :=
    off.append_right s.dropped
  obtain ⟨apart, distinct⟩ := List.nodup_cons.1 (split.nodup_iff.1 lived.distinct)
  refine ⟨sound, size ▸ lived.positive, distinct, fun b member => ?_, ?_⟩
  · exact mallocs ▸ lived.handed b (split.mem_iff.2 (List.mem_cons_of_mem a member))
  · have cells : tableCells s.table.hashSize (s.table.held ++ s.dropped) =
        tableCells s.table.hashSize (a :: (table.held ++ s.dropped)) :=
      tableCells_ext fun b => split.mem_iff
    rw [run_trans (lived.runs.trans (congrArg some cells)), runs apart, size]

theorem get (lived : Lived s) (key : Nat) :
    ∃ s', s.call (.get key) = some s' ∧ Lived s' ∧ s'.table.hashSize = s.table.hashSize := by
  obtain ⟨walk, walks, sub⟩ := lived.walk key
  have below := mixHashHash_lt key lived.positive
  refine ⟨{ s with log := s.log ++ getLog s.table key walk.1 }, ?_,
    lived.keep lived.sound rfl rfl (List.Perm.refl _) ?_, rfl⟩
  · rw [TableLife.call, walks]
    rfl
  · rw [getLog, List.append_assoc, run_bucketAccess below, run_nodeAccess sub,
      run_use (rwLock_mem_iff.2 below), run_nil]

theorem delete (lived : Lived s) (key : Nat) :
    ∃ s', s.call (.delete key) = some s' ∧ Lived s' ∧ s'.table.hashSize = s.table.hashSize := by
  obtain ⟨walk, walks, sub⟩ := lived.walk key
  have below := mixHashHash_lt key lived.positive
  obtain ⟨t', deleted, deletion⟩ := NodeTable.delete_cases lived.sound.shaped key
  have sound' := lived.sound.delete deletion
  have chains := deletion.chain lived.sound
  have size := deletion.hashSize
  have mallocs := deletion.mallocs
  have made : ∀ found, s.table.search key = some found → s.call (.delete key) = some
      { table := t'
        log := s.log ++ deleteLog s.table key walk.1 found
        dropped := match found with
          | some (none, cur) => cur :: s.dropped
          | _ => s.dropped } := by
    intro found searched
    rw [TableLife.call, walks, Option.bind_some, searched, Option.bind_some, deleted]
    rfl
  cases deletion with
  | absent searched others =>
      refine ⟨_, made none searched, lived.keep sound' rfl rfl ?_ ?_, rfl⟩
      · refine List.Perm.append_right _ (List.Perm.of_eq ?_)
        exact congrArg (fun chain => List.flatMap chain _) (NodeTable.chain_len (t := s.table) _).symm
      · exact run_deleteLog below sub rfl
  | @head a back searched split here =>
      refine ⟨_, made _ searched, lived.keep sound' rfl rfl ?_ ?_, rfl⟩
      · rw [split, List.eraseP_cons_of_pos (NodeTable.hit_iff.2 here)] at chains
        have off := NodeTable.held_take below chains rfl (List.Perm.of_eq split)
        exact (off.append_right s.dropped).trans List.perm_middle.symm
      · refine run_deleteLog below sub ?_
        have there := NodeTable.mem_held below (split ▸ List.mem_cons_self)
        simp [unlinkLog, there]
  | @middle p a front back searched split before here =>
      rw [split, NodeTable.eraseP_middle before here] at chains
      have off := NodeTable.held_take below chains rfl (a := a) <| by
        rw [split, List.append_cons, List.append_cons front p back]
        exact List.perm_middle
      have inside := (off.append_right s.dropped).subset
      have there : p ∈ s.table.held := NodeTable.mem_held below (by rw [split]; simp)
      refine ⟨_, made _ searched, lived.give (a := a) sound' rfl rfl off fun apart => ?_, rfl⟩
      exact run_deleteLog below (fun b member => inside (sub member))
        (run_unlinkLog apart (inside (List.mem_append_left _ there)))

theorem entryByIdx (lived : Lived s) {n : Nat} (tallied : s.table.Tallied n) {idx : Nat}
    (below : idx < s.table.hashSize) :
    ∃ s', s.call (.entryByIdx idx) = some s' ∧ Lived s' ∧
      s'.table.hashSize = s.table.hashSize := by
  have pop := lived.sound.shaped.pop_cases idx
  generalize popped : s.table.pop idx = answer at pop
  cases pop with
  | marker zero =>
      refine ⟨{ s with log := s.log ++ popLog s.table idx }, ?_,
        lived.keep lived.sound rfl rfl (List.Perm.refl _) ?_, rfl⟩
      · rw [TableLife.call, if_pos below, popped]
        rfl
      · simp [popLog, zero]
  | @head a back more split =>
      refine ⟨{ s with table := s.table.takeHead idx a, log := s.log ++ popLog s.table idx }, ?_,
        lived.give (a := a) (lived.sound.takeHead split) rfl rfl ?_ fun apart => ?_, rfl⟩
      · rw [TableLife.call, if_pos below, popped]
        rfl
      · exact NodeTable.held_take below (NodeTable.chain_takeHead lived.sound split) rfl
          (List.Perm.of_eq split)
      · have head := lived.sound.shaped.head_of_chain split
        simp [popLog, more, head, erase_node apart]
  | null more empty =>
      have counts := tallied.counts idx
      rw [empty, List.length_nil] at counts
      exact absurd (int32_pos_iff.1 more) (Int.not_lt.2 counts)

theorem call (lived : Lived s) {n : Nat} (tallied : s.table.Tallied n) {c : TableCall}
    (inBounds : c.InBounds s.table.hashSize) :
    ∃ s', s.call c = some s' ∧ Lived s' ∧ s'.table.hashSize = s.table.hashSize := by
  cases c with
  | put key value => exact lived.put key value
  | get key => exact lived.get key
  | delete key => exact lived.delete key
  | entryByIdx idx => exact lived.entryByIdx tallied inBounds

/-- One call moves a counter by at most one, and never ahead of its chain. -/
theorem tallied (lived : Lived s) {n : Nat} (tallied : s.table.Tallied n) (short : n + 1 < 2 ^ 31)
    {c : TableCall} {s' : TableLife} (called : s.call c = some s') : s'.table.Tallied (n + 1) := by
  have sound := lived.sound
  cases c with
  | put key value =>
      cases called
      exact tallied.bucket short (NodeTable.len_put s.table key value)
        (sound.shaped.chain_put key value) (.inl ⟨rfl, rfl⟩)
  | get key =>
      obtain ⟨_, _, rfl⟩ := Option.map_eq_some_iff.1 called
      exact tallied.mono
  | delete key =>
      obtain ⟨_, _, called⟩ := Option.bind_eq_some_iff.1 called
      obtain ⟨_, _, called⟩ := Option.bind_eq_some_iff.1 called
      obtain ⟨table, deleted, rfl⟩ := Option.map_eq_some_iff.1 called
      obtain ⟨_, deleted', deletion⟩ := NodeTable.delete_cases sound.shaped key
      cases deleted.symm.trans deleted'
      have least := (List.le_length_eraseP (l := s.table.chain (mixHashHash key s.table.hashSize))
        (p := s.table.hit key))
      exact tallied.bucket short deletion.len (deletion.chain sound) (.inr ⟨rfl, by omega⟩)
  | entryByIdx idx =>
      rw [TableLife.call] at called
      split at called
      · have pop := sound.shaped.pop_cases idx
        generalize s.table.pop idx = answer at pop called
        cases pop with
        | marker =>
            cases called
            exact tallied.mono
        | @head a back _ split =>
            cases called
            have length : (s.table.chain idx).length ≤ back.length + 1 := by
              rw [split, List.length_cons]
            exact tallied.bucket short (NodeTable.len_takeHead s.table idx a)
              (NodeTable.chain_takeHead sound split) (.inr ⟨rfl, length⟩)
        | null => cases called
      · cases called

theorem calls (lived : Lived s) {n : Nat} (tallied : s.table.Tallied n) {cs : List TableCall}
    (short : n + cs.length < 2 ^ 31) (inBounds : ∀ c ∈ cs, c.InBounds s.table.hashSize) :
    ∃ s', s.calls cs = some s' ∧ Lived s' ∧ s'.table.hashSize = s.table.hashSize := by
  induction cs generalizing s n with
  | nil => exact ⟨s, rfl, lived, rfl⟩
  | cons c cs ih =>
      rw [List.length_cons] at short
      obtain ⟨m, first, livedM, sizeM⟩ := lived.call tallied (inBounds c List.mem_cons_self)
      have talliedM := lived.tallied tallied (by omega) first
      obtain ⟨s', rest, lived', size'⟩ := ih livedM talliedM (by omega) fun d member =>
        sizeM ▸ inBounds d (List.mem_cons_of_mem c member)
      refine ⟨s', ?_, lived', size'.trans sizeM⟩
      rw [TableLife.calls, first, Option.bind_some, rest]

end Lived

/-! ## What mix_hash_free gives back -/

/-- The lock and the nodes of a bucket. -/
def bucketCells (t : NodeTable) (i : Nat) : List HashCell :=
  .rwLock i :: (t.chain i).map .node

section Free

variable {t : NodeTable} {cur : Option Nat} {l is : List Nat} {n i : Nat}
  {live : Finset HashCell}

theorem freeLoop_eq (linked : LinkedList.Linked t.next cur l) (enough : l.length ≤ n) :
    freeLoop t.nodes n cur =
      some ((l.map HashCell.node).flatMap fun c => [.use c, .free c]) := by
  induction linked generalizing n with
  | nil => cases n <;> rfl
  | @cons a l rest ih =>
      match n with
      | n + 1 =>
          have tail := ih (Nat.le_of_succ_le_succ enough)
          rw [freeLoop, show (t.nodes a).next = t.next a from rfl, tail]
          rfl

theorem bucketCells_nodup (shaped : t.Shaped) (i : Nat) : (bucketCells t i).Nodup := by
  have nodes := (shaped.nodup (shaped.heads i)).map (f := HashCell.node) fun _ _ same => by
    cases same
    rfl
  exact List.nodup_cons.2 ⟨by simp, nodes⟩

/-- The loop over distinct buckets gives back all that belongs to them. -/
theorem run_freeBuckets (shaped : t.Shaped) (live : Finset HashCell) (distinct : (is.flatMap (bucketCells t)).Nodup)
    (table : .table ∈ live) (hashNodes : .hashNodes ∈ live)
    (allocated : ∀ c ∈ is.flatMap (bucketCells t), c ∈ live) :
    ∃ log, freeBuckets t is = some log ∧
      run live log = some (live \ (is.flatMap (bucketCells t)).toFinset) := by
  induction is generalizing live with
  | nil => exact ⟨[], rfl, by simp⟩
  | cons i is ih =>
      rw [List.flatMap_cons] at distinct allocated
      obtain ⟨own, others, apart⟩ := List.nodup_append.1 distinct
      have linked := shaped.linked (shaped.heads i)
      have chain : freeLoop t.nodes t.mallocs (t.hashNodes i).list =
          some (((t.chain i).map HashCell.node).flatMap fun c => [.use c, .free c]) :=
        freeLoop_eq linked (shaped.path_spec (shaped.heads i)).2
      obtain ⟨rest, loops, runs⟩ := ih (live \ (bucketCells t i).toFinset) others
        (by simp [table, bucketCells]) (by simp [hashNodes, bucketCells]) fun c member => by
          refine Finset.mem_sdiff.2 ⟨allocated c (List.mem_append_right _ member), fun here => ?_⟩
          exact apart c (List.mem_toFinset.1 here) c member rfl
      refine ⟨_, by rw [freeBuckets, chain, Option.bind_some, loops, Option.map_some], ?_⟩
      have lock : .rwLock i ∈ live :=
        allocated _ (List.mem_append_left _ List.mem_cons_self)
      obtain ⟨lockApart, nodes⟩ := List.nodup_cons.1 own
      have there : ∀ c ∈ (t.chain i).map .node, c ∈ live.erase (.rwLock i) := fun c member =>
        Finset.mem_erase.2 ⟨ne_of_mem_of_not_mem member lockApart,
          allocated c (List.mem_append_left _ (List.mem_cons_of_mem _ member))⟩
      have gone : live.erase (.rwLock i) \ ((t.chain i).map .node).toFinset =
          live \ (bucketCells t i).toFinset := by
        rw [bucketCells, List.toFinset_cons, Finset.sdiff_insert, Finset.erase_sdiff_comm]
      rw [List.cons_append, run_use table, List.cons_append, run_use hashNodes, List.cons_append,
        run_free lock, run_frees nodes there, gone, runs, List.flatMap_cons,
        List.toFinset_append, sdiff_sdiff_left]
      rfl

theorem bucketCells_distinct (shaped : t.Shaped) (held : t.held.Nodup) :
    ((List.range t.hashSize).flatMap (bucketCells t)).Nodup := by
  refine List.nodup_flatMap.2 ⟨fun i _ => bucketCells_nodup shaped i, ?_⟩
  refine ((List.nodup_flatMap.1 held).2.and List.nodup_range).imp ?_
  rintro i j ⟨chains, other⟩ c left right
  cases c with
  | rwLock k => simp_all [bucketCells]
  | node a =>
      simp only [bucketCells, List.mem_cons, reduceCtorEq, List.mem_map, HashCell.node.injEq,
        exists_eq_right, false_or] at left right
      exact chains left right
  | _ => simp [bucketCells] at left

end Free

end Mixdk
