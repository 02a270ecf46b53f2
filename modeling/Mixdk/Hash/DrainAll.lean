/-
# Hash.DrainAll -- popping every bucket to its end

A migration pops each bucket until `mix_hash_get_entry_by_idx` returns the marker, which it
does when the bucket's counter is not positive.  So a drain trusts the counters.  A put and a
delete of a present key move counter and chain together; a delete of an absent key only takes
one off the counter.  So a counter is the length of its chain less the deletes that missed, in
32 bits (`len_calls`).  Hence a table's counters are right, and a drain returns every entry put
and not deleted, exactly when these counts come to nothing and no chain is too long for an
`int` (`drain_iff`); in a history of fewer than 2^31 calls, when no key was deleted while
absent (`countsHold_iff`).

`liveEntries` is what the history says is in the table; it knows of no buckets.
-/
import Mixdk.Hash.Stacks
import Mathlib.Data.List.Induction

namespace Mixdk

set_option autoImplicit false

open ChainTable

/-- Pops of bucket `idx`, `fuel` at most, until the marker comes; with what they returned. -/
def drainBucket (idx : Nat) : Nat → Hash → Option (List MixKv × Hash)
  | 0, _ => none
  | fuel + 1, h =>
      (mixHashGetEntryByIdx h idx).bind fun (kv, m) =>
        if kv = (NO_ENTRY, NO_ENTRY) then some ([], m)
        else (drainBucket idx fuel m).map fun (kvs, m') => (kv :: kvs, m')

def drainBuckets (fuel : Nat) : List Nat → Hash → Option (List MixKv × Hash)
  | [], h => some ([], h)
  | idx :: rest, h =>
      (drainBucket idx fuel h).bind fun (kvs, m) =>
        (drainBuckets fuel rest m).map fun (more, m') => (kvs ++ more, m')

/-- A drain of all buckets. -/
def drainTable (fuel : Nat) (h : Hash) : Option (List MixKv × Hash) :=
  drainBuckets fuel (List.range h.hashSize) h

/-- What a call makes of the entries, newest first. -/
def liveCall (l : List MixKv) : HashCall → List MixKv
  | .put key value => (key, value) :: l
  | .delete key => l.eraseP fun kv => kv.1 == key

/-- The entries put and not deleted; a delete takes the latest put of its key. -/
def liveEntries (calls : List HashCall) : List MixKv := calls.foldl liveCall []

/-- Neither key nor value is the marker's. -/
def HashCall.Storable : HashCall → Prop
  | put key value => key ≠ NO_ENTRY ∧ value ≠ NO_ENTRY
  | delete key => key ≠ NO_ENTRY

/-- The counters are the lengths of the chains, and a drain ends, returns `live` and leaves no
entry. -/
def DrainsAll (h : Hash) (live : List MixKv) : Prop :=
  (∀ i < h.hashSize, (h.hashNodes i).len.toInt = (h.chain i).length) ∧
    ∃ fuel kvs h', drainTable fuel h = some (kvs, h') ∧ kvs.Perm live ∧
      ∀ i < h.hashSize, h'.chain i = []

/-- A delete for bucket `i` whose key is not among the entries. -/
def HashCall.misses (size i : Nat) (live : List MixKv) : HashCall → Bool
  | put _ _ => false
  | delete key => mixHashHash key size = i ∧ live.lookup key = none

/-- The deletes for bucket `i` that miss, from the entries `live` on. -/
def missedDeletes (size i : Nat) : List MixKv → List HashCall → Nat
  | _, [] => 0
  | live, c :: calls =>
      (c.misses size i live).toNat + missedDeletes size i (liveCall live c) calls

/-- The missed deletes of each bucket do not show in its 32 bits, and its entries do not reach
the sign. -/
def CountsHold (size : Nat) (calls : List HashCall) : Prop :=
  ∀ i < size, missedDeletes size i [] calls % 2 ^ 32 = 0 ∧
    (liveEntries calls).countP (fun kv => mixHashHash kv.1 size = i) < 2 ^ 31

/-- Every key is in the table when it is deleted. -/
def DeletesPresent (calls : List HashCall) : Prop :=
  ∀ front key back, calls = front ++ .delete key :: back →
    ∃ value, (key, value) ∈ liveEntries front

namespace Hash

variable {h : Hash} {i : Nat}

/-! ## The chains and the history -/

theorem hashSize_call (h : Hash) (c : HashCall) : (h.call c).hashSize = h.hashSize := by
  cases c <;> rfl

theorem hashSize_calls (h : Hash) (calls : List HashCall) :
    (calls.foldl Hash.call h).hashSize = h.hashSize := by
  induction calls generalizing h with
  | nil => rfl
  | cons c calls ih => rw [List.foldl_cons, ih, hashSize_call]

/-- The table holds the entries of `l`, for each key in the same order. -/
structure Holds (h : Hash) (l : List MixKv) : Prop where
  size : 0 < h.hashSize
  placed : Placed (fun key => mixHashHash key h.hashSize) h.hashSize h.chain
  entries : h.entries.Perm l
  stack : ∀ key, h.stack key = stackOf key l

theorem Holds.find? {l : List MixKv} (holds : h.Holds l) (key : Nat) :
    h.find? key = l.lookup key := by
  rw [find?_eq_head?, holds.stack, lookup_eq_head?_stackOf]

theorem Holds.call {l : List MixKv} (holds : h.Holds l) (c : HashCall) :
    (h.call c).Holds (liveCall l c) := by
  have size := holds.size
  cases c with
  | put key value =>
      refine ⟨size, placed_put size holds.placed key value,
        (entries_put_perm size key value).trans (holds.entries.cons _), fun k => ?_⟩
      rw [Hash.call, stack_put, liveCall, stackOf_cons, holds.stack]
      simp only [eq_comm]
  | delete key =>
      refine ⟨size, placed_delete size holds.placed key, ?_, fun k => ?_⟩
      · cases found : h.find? key with
        | some value =>
            have inHistory : l.lookup key = some value := by rw [← holds.find?, found]
            have taken := (entries_delete_perm size found).symm.trans
              (holds.entries.trans (perm_cons_eraseP inHistory))
            exact (List.perm_cons _).1 taken
        | none =>
            have absent : l.lookup key = none := by rw [← holds.find?, found]
            have same : l.eraseP (fun kv => kv.1 == key) = l := by
              refine List.eraseP_of_forall_not fun kv member named => ?_
              have other := List.lookup_eq_none_iff.1 absent kv member
              rw [beq_iff_eq] at named
              simp [named] at other
            rw [Hash.call, Hash.entries, chain_delete_absent found, liveCall, same]
            exact holds.entries
      · rw [Hash.call, stack_delete, liveCall, stackOf_eraseP, holds.stack]

theorem Holds.calls {l : List MixKv} (holds : h.Holds l) (calls : List HashCall) :
    (calls.foldl Hash.call h).Holds (calls.foldl liveCall l) := by
  induction calls generalizing h l with
  | nil => exact holds
  | cons c calls ih => exact ih (holds.call c)

theorem holds_live {size : Nat} (pos : 0 < size) (calls : List HashCall) :
    (calls.foldl Hash.call (mixHashInit size)).Holds (liveEntries calls) :=
  Holds.calls ⟨pos, (Hash.Sound.init pos).placed, by rw [entries_init], fun _ => rfl⟩ calls

/-- A key is absent in the history exactly when the table does not find it. -/
theorem Holds.find?_eq_none {l : List MixKv} (holds : h.Holds l) {key : Nat} :
    h.find? key = none ↔ ¬ ∃ value, (key, value) ∈ l := by
  rw [holds.find?, List.lookup_eq_none_iff]
  constructor
  · rintro none_ ⟨value, member⟩
    simpa using none_ _ member
  · intro absent kv member
    rw [bne_iff_ne]
    rintro rfl
    exact absent ⟨kv.2, member⟩

/-! ## How far a counter is behind its chain -/

theorem len_setNode (h : Hash) (j : Nat) (node : HashNode) (i : Nat) :
    ((h.setNode j node).hashNodes i).len = if j = i then node.len else (h.hashNodes i).len := by
  by_cases here : j = i
  · rw [if_pos here, here, setNode_self]
  · rw [if_neg here, setNode_of_ne h node (Ne.symm here)]

/-- The counter falls behind by one with a delete that misses. -/
theorem len_call {l : List MixKv} (holds : h.Holds l) {d : Nat}
    (len : (h.hashNodes i).len = .ofInt ((h.chain i).length - d)) (c : HashCall) :
    ((h.call c).hashNodes i).len =
      .ofInt (((h.call c).chain i).length - (d + (c.misses h.hashSize i l).toNat : Nat)) := by
  have one : (1 : Int32) = .ofInt 1 := rfl
  cases c with
  | put key value =>
      rw [Hash.call, chain_put, mixHashPut, len_setNode, Function.update_apply]
      by_cases here : mixHashHash key h.hashSize = i
      · subst here
        rw [if_pos rfl, if_pos rfl, len, one, ← Int32.ofInt_add, List.length_cons]
        refine congrArg Int32.ofInt ?_
        simp only [HashCall.misses, Bool.toNat_false]
        omega
      · rw [if_neg here, if_neg (Ne.symm here), len]
        rfl
  | delete key =>
      rw [Hash.call, chain_delete, mixHashDelete, len_setNode, Function.update_apply]
      by_cases here : mixHashHash key h.hashSize = i
      · subst here
        rw [if_pos rfl, if_pos rfl, len, one, ← Int32.ofInt_sub]
        refine congrArg Int32.ofInt ?_
        cases found : l.lookup key with
        | none =>
            have same := congrFun (chain_delete_absent ((holds.find? key).trans found))
              (mixHashHash key h.hashSize)
            rw [chain_delete, Function.update_self] at same
            rw [same]
            simp only [HashCall.misses, found, and_self, decide_true, Bool.toNat_true]
            omega
        | some value =>
            have off : (h.chain (mixHashHash key h.hashSize)).length =
                ((h.chain (mixHashHash key h.hashSize)).eraseP fun kv => kv.1 == key).length + 1 :=
              (perm_cons_eraseP ((holds.find? key).trans found)).length_eq
            simp only [HashCall.misses, found, reduceCtorEq, and_false, decide_false,
              Bool.toNat_false]
            omega
      · rw [if_neg here, if_neg (Ne.symm here), len]
        simp [HashCall.misses, here]

theorem len_calls {l : List MixKv} (holds : h.Holds l) {d : Nat}
    (len : (h.hashNodes i).len = .ofInt ((h.chain i).length - d)) (calls : List HashCall) :
    ((calls.foldl Hash.call h).hashNodes i).len =
      .ofInt (((calls.foldl Hash.call h).chain i).length -
        (d + missedDeletes h.hashSize i l calls : Nat)) := by
  induction calls generalizing h l d with
  | nil => exact len
  | cons c calls ih =>
      have rest := ih (holds.call c) (len_call holds len c)
      rw [hashSize_call, Nat.add_assoc] at rest
      exact rest

/-- A counter is right just when the missed deletes of its bucket do not show in it, and the
chain is not too long for it. -/
theorem len_iff {size : Nat} (below : i < size) (calls : List HashCall) :
    ((calls.foldl Hash.call (mixHashInit size)).hashNodes i).len.toInt =
        ((calls.foldl Hash.call (mixHashInit size)).chain i).length ↔
      missedDeletes size i [] calls % 2 ^ 32 = 0 ∧
        (liveEntries calls).countP (fun kv => mixHashHash kv.1 size = i) < 2 ^ 31 := by
  have pos := Nat.zero_lt_of_lt below
  have holds := holds_live pos calls
  have sizes : (calls.foldl Hash.call (mixHashInit size)).hashSize = size := hashSize_calls _ calls
  have placed := holds.placed
  rw [sizes] at placed
  have len : ((calls.foldl Hash.call (mixHashInit size)).hashNodes i).len =
      .ofInt (((calls.foldl Hash.call (mixHashInit size)).chain i).length -
        (0 + missedDeletes size i [] calls : Nat)) :=
    len_calls (holds_live pos []) rfl calls
  have length : (liveEntries calls).countP (fun kv => mixHashHash kv.1 size = i) =
      ((calls.foldl Hash.call (mixHashInit size)).chain i).length := by
    rw [← holds.entries.countP_eq, Hash.entries, sizes]
    exact countP_pairs placed below
  rw [len, Int32.toInt_ofInt, length, Nat.zero_add]
  rw [Int.bmod_def, Int32.size]
  omega

/-- The counters are right just when the counts hold. -/
theorem lens_iff {size : Nat} {calls : List HashCall} :
    (let h := calls.foldl Hash.call (mixHashInit size)
      ∀ i < h.hashSize, (h.hashNodes i).len.toInt = (h.chain i).length) ↔ CountsHold size calls := by
  have sizes : (calls.foldl Hash.call (mixHashInit size)).hashSize = size := hashSize_calls _ calls
  simp only [sizes]
  exact forall₂_congr fun i below => len_iff below calls

/-! ## A drain -/

/-- A bucket with the right counter comes out whole, in the order of its chain. -/
theorem drainBucket_eq {fuel : Nat} (len : (h.hashNodes i).len.toInt = (h.chain i).length)
    (proper : (NO_ENTRY, NO_ENTRY) ∉ h.chain i) (enough : (h.chain i).length < fuel) :
    drainBucket i fuel h = some (h.chain i, h.setNode i { len := 0, list := [] }) := by
  induction fuel generalizing h with
  | zero => omega
  | succ fuel ih =>
      rw [drainBucket]
      cases chain : h.chain i with
      | nil =>
          rw [chain, List.length_nil] at len
          have node : h.hashNodes i = { len := 0, list := [] } := by
            rw [← chain, ← Int32.toInt_inj.1 (len.trans Int32.toInt_zero.symm)]
            rfl
          have empty : ¬ 0 < (h.hashNodes i).len := by
            rw [int32_pos_iff]
            omega
          rw [getEntryByIdx_of_empty empty, Option.bind_some, ← node, setNode_same]
          exact if_pos rfl
      | cons kv rest =>
          rw [chain, List.length_cons] at len enough
          rw [chain] at proper
          obtain ⟨other, proper⟩ := not_or.1 (mt List.mem_cons.2 proper)
          have more : 0 < (h.hashNodes i).len := int32_pos_iff.2 (by omega)
          rw [getEntryByIdx_of_cons more chain, Option.bind_some]
          have tail : (h.setNode i { len := (h.hashNodes i).len - 1, list := rest }).chain i = rest := by
            rw [chain_setNode, Function.update_self]
          have drained := ih (h := h.setNode i { len := (h.hashNodes i).len - 1, list := rest })
            (by rw [tail, setNode_self, toInt_sub_one (by omega), len, Int.natCast_add,
              Int.natCast_one, Int.add_sub_cancel])
            (by rwa [tail]) (by rw [tail]; omega)
          rw [tail, setNode_setNode] at drained
          simp only [Ne.symm other, if_false, drained, Option.map_some]

/-- Buckets with the right counters come out one after the other. -/
theorem drainBuckets_eq {fuel : Nat} {l : List Nat} (distinct : l.Nodup)
    (lens : ∀ i ∈ l, (h.hashNodes i).len.toInt = (h.chain i).length)
    (proper : ∀ i ∈ l, (NO_ENTRY, NO_ENTRY) ∉ h.chain i)
    (enough : ∀ i ∈ l, (h.chain i).length < fuel) :
    ∃ h', drainBuckets fuel l h = some (l.flatMap h.chain, h') ∧ (∀ i ∈ l, h'.chain i = []) ∧
      ∀ i ∉ l, h'.chain i = h.chain i := by
  induction l generalizing h with
  | nil => exact ⟨h, rfl, by simp, fun _ _ => rfl⟩
  | cons i l ih =>
      obtain ⟨new, distinct⟩ := List.nodup_cons.1 distinct
      have first := drainBucket_eq (lens i List.mem_cons_self) (proper i List.mem_cons_self)
        (enough i List.mem_cons_self)
      let m := h.setNode i { len := 0, list := [] }
      have node : ∀ j ∈ l, m.hashNodes j = h.hashNodes j := by
        intro j member
        have other : j ≠ i := fun same => new (same ▸ member)
        exact setNode_of_ne h _ other
      have chain : ∀ j ∈ l, m.chain j = h.chain j := fun j member => by
        rw [Hash.chain, node j member, Hash.chain]
      obtain ⟨h', rest, emptied, kept⟩ := ih (h := m) distinct
        (fun j member => by rw [node j member, chain j member, lens j (List.mem_cons_of_mem _ member)])
        (fun j member => by rw [chain j member]; exact proper j (List.mem_cons_of_mem _ member))
        (fun j member => by rw [chain j member]; exact enough j (List.mem_cons_of_mem _ member))
      refine ⟨h', ?_, ?_, ?_⟩
      · rw [drainBuckets, first, Option.bind_some]
        simp only
        rw [rest, Option.map_some, List.flatMap_cons]
        have same : l.flatMap m.chain = l.flatMap h.chain := List.flatMap_congr chain
        rw [same]
      · intro j member
        rcases List.mem_cons.1 member with rfl | later
        · rw [kept j new]
          simp [m, Hash.chain]
        · exact emptied j later
      · intro j outside
        rw [List.mem_cons, not_or] at outside
        rw [kept j outside.2, Hash.chain, setNode_of_ne h _ outside.1]
        rfl

/-- A table with the right counters and no marker in it comes out whole. -/
theorem Sound.drains (sound : h.Sound) (proper : (NO_ENTRY, NO_ENTRY) ∉ h.entries) :
    ∃ fuel h', drainTable fuel h = some (h.entries, h') ∧ ∀ i < h.hashSize, h'.chain i = [] := by
  have short : ∀ i ∈ List.range h.hashSize, (h.chain i).length < h.entries.length + 1 := by
    intro i member
    exact Nat.lt_succ_of_le (chain_length_le h (List.mem_range.1 member))
  obtain ⟨h', ran, emptied, -⟩ := drainBuckets_eq List.nodup_range
    (fun i member => sound.lens i (List.mem_range.1 member))
    (fun i member inChain => proper (mem_pairs.2 ⟨i, List.mem_range.1 member, inChain⟩)) short
  exact ⟨_, h', ran, fun i below => emptied i (List.mem_range.2 below)⟩

end Hash

/-- The history puts no marker. -/
theorem liveEntries_proper {calls : List HashCall} (storable : ∀ c ∈ calls, c.Storable) :
    (NO_ENTRY, NO_ENTRY) ∉ liveEntries calls := by
  induction calls using List.reverseRecOn with
  | nil => simp [liveEntries]
  | append_singleton calls c ih =>
      have before := ih fun c member => storable c (List.mem_append_left _ member)
      have last := storable c (List.mem_append_right _ List.mem_cons_self)
      rw [liveEntries, List.foldl_append, List.foldl_cons, List.foldl_nil]
      cases c with
      | put key value =>
          rintro (_ | ⟨_, old⟩)
          · exact last.1 rfl
          · exact before old
      | delete key => exact fun member => before (List.mem_of_mem_eraseP member)

/-- **The counters are right and a drain returns the entries put and not deleted exactly when
the counts hold.** -/
theorem drain_iff {size : Nat} (pos : 0 < size) {calls : List HashCall}
    (storable : ∀ c ∈ calls, c.Storable) :
    DrainsAll (calls.foldl Hash.call (mixHashInit size)) (liveEntries calls) ↔
      CountsHold size calls := by
  constructor
  · exact fun drains => Hash.lens_iff.1 drains.1
  · intro counts
    have holds := Hash.holds_live pos calls
    have sound : (calls.foldl Hash.call (mixHashInit size)).Sound :=
      ⟨holds.size, holds.placed, Hash.lens_iff.2 counts⟩
    obtain ⟨fuel, h', ran, emptied⟩ := sound.drains fun member =>
      liveEntries_proper storable (holds.entries.mem_iff.1 member)
    exact ⟨sound.lens, fuel, _, h', ran, holds.entries, emptied⟩

/-- Two keys in one bucket; the one deleted was there. -/
theorem drain_iff_two :
    let calls : List HashCall := [.put 7 1, .put 8 2, .delete 7]
    DrainsAll (calls.foldl Hash.call (mixHashInit 1)) (liveEntries calls) ↔ CountsHold 1 calls :=
  drain_iff (by decide) (by simp [HashCall.Storable, NO_ENTRY])

/-! ## Histories that no counter can show -/

theorem misses_eq_true {size i : Nat} {live : List MixKv} {c : HashCall}
    (missed : c.misses size i live = true) : ∃ key, c = .delete key ∧ live.lookup key = none := by
  cases c with
  | put => cases missed
  | delete key => exact ⟨key, rfl, (of_decide_eq_true missed).2⟩

theorem missedDeletes_le (size i : Nat) (live : List MixKv) (calls : List HashCall) :
    missedDeletes size i live calls ≤ calls.length := by
  induction calls generalizing live with
  | nil => exact Nat.le_refl 0
  | cons c calls ih =>
      have rest := ih (liveCall live c)
      have one := Bool.toNat_le (c.misses size i live)
      rw [missedDeletes, List.length_cons]
      omega

theorem liveCalls_length_le (live : List MixKv) (calls : List HashCall) :
    (calls.foldl liveCall live).length ≤ live.length + calls.length := by
  induction calls generalizing live with
  | nil => exact Nat.le_refl _
  | cons c calls ih =>
      have rest := ih (liveCall live c)
      have one : (liveCall live c).length ≤ live.length + 1 := by
        cases c with
        | put => exact Nat.le_refl _
        | delete key => exact Nat.le_succ_of_le (List.length_eraseP_le ..)
      rw [List.foldl_cons, List.length_cons]
      omega

/-- No delete misses just when none does at any bucket. -/
theorem missedDeletes_eq_zero {size : Nat} (pos : 0 < size) {live : List MixKv}
    {calls : List HashCall} :
    (∀ i < size, missedDeletes size i live calls = 0) ↔
      ∀ front key back, calls = front ++ .delete key :: back →
        (front.foldl liveCall live).lookup key ≠ none := by
  induction calls generalizing live with
  | nil => simp [missedDeletes]
  | cons c calls ih =>
      constructor
      · intro zero front key back split
        cases front with
        | nil =>
            obtain ⟨rfl, rfl⟩ := List.cons.inj split
            intro missing
            have here := zero _ (mixHashHash_lt key pos)
            simp only [List.foldl_nil] at missing
            simp [missedDeletes, HashCall.misses, missing] at here
        | cons d front =>
            obtain ⟨rfl, rfl⟩ := List.cons.inj split
            refine ih.1 (fun i below => ?_) front key back rfl
            have sum := zero i below
            rw [missedDeletes] at sum
            omega
      · intro present i below
        have rest := ih.2 (fun front key back split =>
          present (c :: front) key back (by rw [split, List.cons_append])) i below
        have first : c.misses size i live = false := by
          refine Bool.eq_false_iff.2 fun missed => ?_
          obtain ⟨key, rfl, missing⟩ := misses_eq_true missed
          exact present [] key calls rfl missing
        rw [missedDeletes, rest, first]
        rfl

/-- In a history of fewer than 2^31 calls the counts hold just when every key is in the table
when it is deleted. -/
theorem countsHold_iff {size : Nat} (pos : 0 < size) {calls : List HashCall}
    (short : calls.length < 2 ^ 31) : CountsHold size calls ↔ DeletesPresent calls := by
  have present : DeletesPresent calls ↔ ∀ front key back, calls = front ++ .delete key :: back →
      (front.foldl liveCall []).lookup key ≠ none := by
    refine forall₄_congr fun front key back _ => ?_
    have holds := Hash.holds_live pos front
    rw [← liveEntries, ← holds.find?, ne_eq, holds.find?_eq_none, not_not]
  rw [present, ← missedDeletes_eq_zero pos]
  refine forall₂_congr fun i below => ?_
  have missed := missedDeletes_le size i [] calls
  have length := liveCalls_length_le [] calls
  have most := (List.countP_le_length (p := fun kv : MixKv => decide (mixHashHash kv.1 size = i))
    (l := liveEntries calls))
  rw [liveEntries] at most
  rw [List.length_nil] at length
  rw [liveEntries]
  omega

/-- Key 8 is deleted and was never put: key 7 stays behind in the table. -/
theorem drain_strands_entry :
    let calls : List HashCall := [.put 7 1, .delete 8]
    let h := calls.foldl Hash.call (mixHashInit 1)
    (h.hashNodes 0).len = 0 ∧ h.chain 0 = [(7, 1)] ∧ ¬ DrainsAll h (liveEntries calls) := by
  intro calls h
  have len : (h.hashNodes 0).len = 0 := by decide
  have chain : h.chain 0 = [(7, 1)] := by decide
  refine ⟨len, chain, fun drains => ?_⟩
  have right := drains.1 0 (by decide)
  rw [len, chain] at right
  cases right

end Mixdk
