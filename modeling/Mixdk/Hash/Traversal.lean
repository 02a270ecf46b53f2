/-
# Hash.Traversal -- one entry after another

`mix_hash_get_entry` goes round the buckets from `hash_node_entry_idx` until it meets one that
is not empty, and pops it.  Its test for the end compares that index with `hash_size`, but the
index moves modulo `hash_size` and never gets there.  So a call on a table with an entry
returns one, and a call on an empty table goes round for ever: of the calls after
`mix_migrate` exactly as many return as the table has entries (`traversal_iff`).

A turn of the loop is `getEntryTurn`; `mixHashGetEntry n` takes at most `n` of them and says
whether the call is still in the loop.
-/
import Mixdk.Core.Metadata

namespace Mixdk

set_option autoImplicit false

open ChainTable CyclicSearch

/-- `mix_migrate`; the rest of its body is commented out. -/
def mixMigrate (md : Metadata) (idx : SegIdx) : Metadata :=
  let seg := md.segments idx
  md.setSegment idx { seg with hash := { seg.hash with hashNodeEntryIdx := 0 } }

/-- Where a call of `mix_hash_get_entry` is. -/
inductive GetEntry
  | returned (kv : MixKv) (h : Hash)
  | looping (h : Hash)
  /-- It has read outside the array of buckets, or through a NULL list. -/
  | fault

/-- One turn of the `while (1)`. -/
def getEntryTurn (h : Hash) : GetEntry :=
  if 0 ≤ h.hashNodeEntryIdx ∧ h.hashNodeEntryIdx < h.hashSize then
    let idx := h.hashNodeEntryIdx.toNat
    let node := h.hashNodes idx
    if 0 < node.len then
      match node.list with
      | kv :: rest => .returned kv (h.setNode idx { len := node.len - 1, list := rest })
      | [] => .fault
    else if h.hashNodeEntryIdx = h.hashSize then .returned (NO_ENTRY, NO_ENTRY) h
    else .looping { h with hashNodeEntryIdx := (h.hashNodeEntryIdx + 1) % h.hashSize }
  else .fault

/-- The call after `turns` turns, or when it left the loop before. -/
def mixHashGetEntry : Nat → Hash → GetEntry
  | 0, h => .looping h
  | turns + 1, h =>
      match getEntryTurn h with
      | .looping m => mixHashGetEntry turns m
      | left => left

/-- Calls that all return, with what they return. -/
inductive GetEntries : Hash → List MixKv → Hash → Prop
  | nil (h : Hash) : GetEntries h [] h
  | cons {h m h' : Hash} {kv : MixKv} {kvs : List MixKv} (turns : Nat)
      (first : mixHashGetEntry turns h = .returned kv m) (rest : GetEntries m kvs h') :
      GetEntries h (kv :: kvs) h'

/-- `n` calls all return: entries of the table, each once, and the marker from the moment on
when it is empty. -/
def Traverses (h : Hash) (n : Nat) : Prop :=
  ∃ got markers h', got.length + markers = n ∧
    GetEntries h (got ++ List.replicate markers (NO_ENTRY, NO_ENTRY)) h' ∧
    h.entries.Perm (got ++ h'.entries) ∧ (0 < markers → h'.entries = [])

/-- Between two calls. -/
structure Hash.Traversable (h : Hash) : Prop where
  lens : ∀ i < h.hashSize, (h.hashNodes i).len.toInt = (h.chain i).length
  idx : ∃ i < h.hashSize, h.hashNodeEntryIdx = (i : Int)

section

variable {h h' : Hash} {i n : Nat}

/-- The table when the traversal is at bucket `i`. -/
def Hash.at (h : Hash) (i : Nat) : Hash := { h with hashNodeEntryIdx := i }

@[simp] theorem at_entries (h : Hash) (i : Nat) : (h.at i).entries = h.entries := rfl

/-- An empty bucket: the traversal goes to the next one, round the table. -/
theorem getEntryTurn_of_empty (below : i < h.hashSize) (empty : ¬ 0 < (h.hashNodes i).len) :
    getEntryTurn (h.at i) = .looping (h.at ((i + 1) % h.hashSize)) := by
  have inside : (0 : Int) ≤ i ∧ (i : Int) < h.hashSize := ⟨by omega, by omega⟩
  have notEnd : ¬ (i : Int) = h.hashSize := by omega
  simp only [getEntryTurn, Hash.at, inside, if_true, Int.toNat_natCast, empty, if_false, notEnd,
    and_self, Int.natCast_emod, Int.natCast_add, Int.natCast_one]

/-- A bucket with an entry: it is popped. -/
theorem getEntryTurn_of_entry (below : i < h.hashSize) {kv : MixKv} {rest : List MixKv}
    (some_ : 0 < (h.hashNodes i).len) (chain : h.chain i = kv :: rest) :
    getEntryTurn (h.at i) =
      .returned kv ((h.at i).setNode i { len := (h.hashNodes i).len - 1, list := rest }) := by
  have inside : (0 : Int) ≤ i ∧ (i : Int) < h.hashSize := ⟨by omega, by omega⟩
  have list : (h.hashNodes i).list = kv :: rest := chain
  simp only [getEntryTurn, Hash.at, inside, if_true, Int.toNat_natCast, some_, list, and_self]

/-- Past `d` empty buckets the call is `d` turns on. -/
theorem mixHashGetEntry_skip (turns : Nat) {d : Nat} (below : i < h.hashSize)
    (empty : ∀ e < d, ¬ 0 < (h.hashNodes ((i + e) % h.hashSize)).len) :
    mixHashGetEntry (d + turns) (h.at i) = mixHashGetEntry turns (h.at ((i + d) % h.hashSize)) := by
  induction d generalizing i with
  | zero => rw [Nat.zero_add, Nat.add_zero, Nat.mod_eq_of_lt below]
  | succ d ih =>
      have here : ¬ 0 < (h.hashNodes i).len := by
        have first := empty 0 (Nat.succ_pos d)
        rwa [Nat.add_zero, Nat.mod_eq_of_lt below] at first
      have shift : ∀ e, ((i + 1) % h.hashSize + e) % h.hashSize = (i + (e + 1)) % h.hashSize := by
        intro e
        rw [Nat.mod_add_mod, Nat.add_assoc, Nat.add_comm 1 e]
      have next : (i + 1) % h.hashSize < h.hashSize := Nat.mod_lt _ (by omega)
      have later := ih next fun e less => by
        rw [shift]
        exact empty (e + 1) (Nat.succ_lt_succ less)
      rw [Nat.succ_add, mixHashGetEntry, getEntryTurn_of_empty below here]
      simp only [later, shift]

/-- The counter of a bucket is positive just when its chain has an entry. -/
theorem Hash.Traversable.len_pos (ready : h.Traversable) (below : i < h.hashSize) :
    0 < (h.hashNodes i).len ↔ h.chain i ≠ [] := by
  rw [int32_pos_iff, ready.lens i below]
  cases h.chain i <;> simp

theorem Hash.Traversable.at_self (ready : h.Traversable) :
    ∃ i < h.hashSize, h = h.at i := by
  obtain ⟨i, below, idx⟩ := ready.idx
  refine ⟨i, below, ?_⟩
  rw [Hash.at, ← idx]

/-- **A call on an empty table is in the loop after any number of turns.** -/
theorem Hash.Traversable.loops (ready : h.Traversable) (none_ : h.entries = []) (turns : Nat) :
    ∃ m, mixHashGetEntry turns h = .looping m := by
  obtain ⟨i, below, here⟩ := ready.at_self
  have empty : ∀ e < turns, ¬ 0 < (h.hashNodes ((i + e) % h.hashSize)).len := by
    intro e _
    have inside : (i + e) % h.hashSize < h.hashSize := Nat.mod_lt _ (by omega)
    rw [ready.len_pos inside, not_not, List.eq_nil_iff_forall_not_mem]
    intro kv member
    have entry : kv ∈ h.entries := mem_pairs.2 ⟨_, inside, member⟩
    rw [none_] at entry
    cases entry
  have skipped := mixHashGetEntry_skip 0 below empty
  rw [Nat.add_zero, ← here] at skipped
  exact ⟨_, skipped⟩

/-- **A call on a table with an entry returns one, and takes it out.** -/
theorem Hash.Traversable.takes (ready : h.Traversable) (some_ : h.entries ≠ []) :
    ∃ turns kv m, mixHashGetEntry turns h = .returned kv m ∧ m.Traversable ∧
      h.entries.Perm (kv :: m.entries) := by
  obtain ⟨i, below, here⟩ := ready.at_self
  obtain ⟨kv, member⟩ := List.exists_mem_of_ne_nil _ some_
  obtain ⟨j, inside, chained⟩ := mem_pairs.1 member
  -- the first bucket with an entry, going round from where the last call stopped
  let isEmpty := fun b => decide (¬ 0 < (h.hashNodes b).len)
  obtain ⟨z, found⟩ : ∃ z, First isEmpty h.hashSize i z := by
    cases search : cyclicFind isEmpty h.hashSize h.hashSize i with
    | none =>
        have all := (cyclicFind_none_iff below).1 search j inside
        rw [decide_eq_true_eq, ready.len_pos inside] at all
        exact absurd (List.ne_nil_of_mem chained) all
    | some z => exact ⟨z, cyclicFind_eq_some below search⟩
  have zBelow := found.below
  obtain ⟨d, -, at_, fails, before⟩ := found
  have filled : 0 < (h.hashNodes z).len := by
    have := of_decide_eq_false fails
    rwa [not_not] at this
  obtain ⟨kv, rest, chain⟩ := List.exists_cons_of_ne_nil ((ready.len_pos zBelow).1 filled)
  refine ⟨d + 1, kv, (h.at z).setNode z { len := (h.hashNodes z).len - 1, list := rest }, ?_,
    ⟨?_, z, zBelow, rfl⟩, ?_⟩
  · have skipped := mixHashGetEntry_skip 1 below fun e less => of_decide_eq_true (before e less)
    rw [← here, ← at_] at skipped
    rw [skipped, mixHashGetEntry, getEntryTurn_of_entry zBelow filled chain]
  · have counted := ready.lens z zBelow
    rw [chain, List.length_cons] at counted
    refine lens_setNode ?_ ready.lens
    rw [toInt_sub_one (by omega), counted]
    simp
  · have off : (h.chain z).Perm (kv :: rest) := by rw [chain]
    rw [Hash.entries, Hash.entries, chain_setNode]
    exact pairs_take_perm h.chain kv zBelow off

/-- A call returns once. -/
theorem mixHashGetEntry_returned {turns : Nat} {kv : MixKv} {m : Hash}
    (left : mixHashGetEntry turns h = .returned kv m) (more : Nat) :
    mixHashGetEntry (turns + more) h = .returned kv m := by
  induction turns generalizing h with
  | zero => cases left
  | succ turns ih =>
      rw [Nat.succ_add]
      rw [mixHashGetEntry] at left ⊢
      cases turn : getEntryTurn h with
      | looping m' =>
          rw [turn] at left
          exact ih left
      | returned kv' m' =>
          rw [turn] at left
          exact left
      | fault =>
          rw [turn] at left
          exact left

theorem mixHashGetEntry_unique {turns turns' : Nat} {kv kv' : MixKv} {m m' : Hash}
    (left : mixHashGetEntry turns h = .returned kv m)
    (left' : mixHashGetEntry turns' h = .returned kv' m') : kv = kv' ∧ m = m' := by
  have one := mixHashGetEntry_returned left turns'
  have two := mixHashGetEntry_returned left' turns
  rw [Nat.add_comm, one, GetEntry.returned.injEq] at two
  exact two

/-- Calls that return take out what they return. -/
theorem GetEntries.takes {kvs : List MixKv} (calls : GetEntries h kvs h')
    (ready : h.Traversable) : h.entries.Perm (kvs ++ h'.entries) := by
  induction calls with
  | nil => exact .refl _
  | @cons h m h' kv kvs turns first _ ih =>
      have some_ : h.entries ≠ [] := by
        intro none_
        obtain ⟨_, loops⟩ := ready.loops none_ turns
        rw [loops] at first
        cases first
      obtain ⟨turns', kv', m', returned, ready', took⟩ := ready.takes some_
      obtain ⟨rfl, rfl⟩ := mixHashGetEntry_unique first returned
      exact took.trans ((ih ready').cons kv)

/-- As many calls return as there are entries. -/
theorem Hash.Traversable.getEntries (ready : h.Traversable) (enough : n ≤ h.entries.length) :
    ∃ kvs h', kvs.length = n ∧ GetEntries h kvs h' := by
  induction n generalizing h with
  | zero => exact ⟨[], h, rfl, .nil h⟩
  | succ n ih =>
      have some_ : h.entries ≠ [] := List.ne_nil_of_length_pos (by omega)
      obtain ⟨turns, kv, m, returned, ready', took⟩ := ready.takes some_
      have count := took.length_eq
      rw [List.length_cons] at count
      obtain ⟨kvs, h', length, calls⟩ := ih ready' (by omega)
      exact ⟨kv :: kvs, h', by rw [List.length_cons, length], .cons turns returned calls⟩

end

/-- **After `mix_migrate`, `n` calls of `mix_hash_get_entry` all return, and return what they
should, exactly when the table has `n` entries.** -/
theorem traversal_iff {md : Metadata} {idx : SegIdx} (size : 0 < (md.segments idx).hash.hashSize)
    (lens : ∀ i < (md.segments idx).hash.hashSize,
      ((md.segments idx).hash.hashNodes i).len.toInt = ((md.segments idx).hash.chain i).length)
    (n : Nat) :
    Traverses ((mixMigrate md idx).segments idx).hash n ↔
      n ≤ (md.segments idx).hash.entries.length := by
  have start : ((mixMigrate md idx).segments idx).hash = (md.segments idx).hash.at 0 := by
    rw [mixMigrate, Metadata.setSegment_self]
    rfl
  have ready : ((md.segments idx).hash.at 0).Traversable := ⟨lens, 0, size, rfl⟩
  rw [start]
  constructor
  · rintro ⟨got, markers, h', rfl, calls, -, -⟩
    have took := (calls.takes ready).length_eq
    rw [at_entries, List.length_append, List.length_append, List.length_replicate] at took
    omega
  · intro enough
    obtain ⟨kvs, h', length, calls⟩ := ready.getEntries (n := n) enough
    have took := calls.takes ready
    refine ⟨kvs, 0, h', length, ?_, took, fun none_ => absurd none_ (Nat.lt_irrefl 0)⟩
    rw [List.replicate_zero, List.append_nil]
    exact calls

/-- An index where block 7 is in slot 1 of segment `idx`. -/
def oneEntryIndex (idx : SegIdx) : Metadata :=
  let md := mixMetadataInit BUFFER_BLOCK_NUM
  md.setSegment idx { md.segments idx with hash := mixHashPut (md.segments idx).hash 7 1 }

theorem oneEntryIndex_sound (idx : SegIdx) : ((oneEntryIndex idx).segments idx).hash.Sound := by
  rw [oneEntryIndex, Metadata.setSegment_self]
  exact .one (by decide) 7 1

/-- One call, and one entry. -/
theorem traversal_iff_one :
    Traverses ((mixMigrate (oneEntryIndex 2) 2).segments 2).hash 1 ↔
      1 ≤ ((oneEntryIndex 2).segments 2).hash.entries.length :=
  traversal_iff (oneEntryIndex_sound 2).size (oneEntryIndex_sound 2).lens 1

/-- A segment with nothing in it: the first call never returns. -/
theorem traversal_of_empty_loops :
    ¬ Traverses ((mixMigrate (mixMetadataInit BUFFER_BLOCK_NUM) 2).segments 2).hash 1 := by
  have ready : ((mixMigrate (mixMetadataInit BUFFER_BLOCK_NUM) 2).segments 2).hash.Traversable := by
    rw [mixMigrate, Metadata.setSegment_self]
    exact ⟨(Hash.Sound.init (by decide)).lens, 0, (Hash.Sound.init (by decide)).size, rfl⟩
  have none_ : ((mixMigrate (mixMetadataInit BUFFER_BLOCK_NUM) 2).segments 2).hash.entries = [] := by
    rw [mixMigrate, Metadata.setSegment_self]
    exact entries_init 100
  rintro ⟨got, markers, h', count, calls, -, -⟩
  have took := (calls.takes ready).length_eq
  rw [none_, List.length_append, List.length_append, List.length_replicate, List.length_nil] at took
  omega

end Mixdk
