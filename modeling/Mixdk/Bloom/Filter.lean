/-
# Bloom.Filter -- the counting bloom filter

`mix_bloom_filter.c`.  A key picks `nfuncs` counters with two words of its hash; adding it
increments them, removing it decrements them, and it tests positive while all are positive.
As long as no increment is refused, each counter is the number of times the keys added and
not removed pick it (`Counted`), so none of these keys is missed (`bloomFilter_no_false_negatives`).

Add ignores the refusal of an increment at 15, but the remove decrements all the same: after a
refused increment there is a way to lose the key (`refused_add_loses`).

The numbers `nfuncs` and `counts_per_func`, which `mix_counting_bloom_filter_init` computes with
floating point, and the hash are parameters.
-/
import Mixdk.Bloom.CountingBitmap
import Mixdk.Lib.Transition

namespace Mixdk

set_option autoImplicit false

open Transition

/-- `sizeof(mix_couting_bloom_header_t)`. -/
def HEADER_BYTES : Nat := 16

/-- `mix_counting_bloom_filter_t`.  The header is the start of the bitmap's array. -/
structure BloomFilter where
  nfuncs : Nat
  countsPerFunc : Nat
  offset : Nat
  bitmap : Bitmap

/-- `header->count`, bytes 8 to 11 of the array. -/
def headerCount (b : Bitmap) : Nat :=
  (List.range 4).foldr (fun i rest => (b.array (8 + i)).toNat + 256 * rest) 0

def setHeaderCount (b : Bitmap) (count : Nat) : Bitmap :=
  { b with array := fun p =>
      if 8 ≤ p ∧ p < 12 then BitVec.ofNat 8 (count / 256 ^ (p - 8)) else b.array p }

def mixCountingBloomFilterInit (nfuncs countsPerFunc : Nat) : BloomFilter :=
  let size := nfuncs * countsPerFunc
  let numBytes := (size + 1) / 2 + HEADER_BYTES
  { nfuncs := nfuncs
    countsPerFunc := countsPerFunc
    offset := HEADER_BYTES
    bitmap := mixBitmapInit numBytes }

/-- The first two words `MurmurHash3_x64_128` gives for a key: `h1` and `h2`. -/
abbrev Checksum := Nat → Nat × Nat

/-- `hash_func`. -/
def hashFunc (checksum : Checksum) (f : BloomFilter) (key : Nat) : List Nat :=
  let (h1, h2) := checksum key
  (List.range f.nfuncs).map fun i => u32 (h1 + i * h2) % f.countsPerFunc

/-- The counters of a key, one for each function. -/
def bloomIndexes (checksum : Checksum) (f : BloomFilter) (key : Nat) : List Nat :=
  (hashFunc checksum f key).zipIdx.map fun (hash, i) =>
    let offset := u32 (i * f.countsPerFunc)
    u32 (hash + offset)

def mixCountingBloomFilterAdd (checksum : Checksum) (f : BloomFilter) (key : Nat) : BloomFilter :=
  let bitmap := (bloomIndexes checksum f key).foldl
    (fun b index => (mixCountingBitmapIncrement b index f.offset).2) f.bitmap
  { f with bitmap := setHeaderCount bitmap (u32 (headerCount bitmap + 1)) }

def mixCountingBloomFilterRemove (checksum : Checksum) (f : BloomFilter) (key : Nat) : BloomFilter :=
  let bitmap := (bloomIndexes checksum f key).foldl
    (fun b index => (mixCountingBitmapDecrement b index f.offset).2) f.bitmap
  { f with bitmap := setHeaderCount bitmap (u32 (headerCount bitmap + (2 ^ 32 - 1))) }

def mixCountingBloomFilterTest (checksum : Checksum) (f : BloomFilter) (key : Nat) : Nat :=
  if (bloomIndexes checksum f key).all fun index =>
    mixCountingBitmapCheck f.bitmap index f.offset != 0 then 1 else 0

/-! ## The filter as a family of counters -/

namespace BloomFilter

/-- The counters of the filter. -/
def counters (f : BloomFilter) : Nat → Nat := counts f.bitmap f.offset

/-- Two filters with the same sizes, whose keys pick the same counters. -/
structure SameSizes (f g : BloomFilter) : Prop where
  nfuncs : g.nfuncs = f.nfuncs
  countsPerFunc : g.countsPerFunc = f.countsPerFunc
  offset : g.offset = f.offset

variable {f g : BloomFilter}

theorem SameSizes.indexes (same : SameSizes f g) (checksum : Checksum) (key : Nat) :
    bloomIndexes checksum g key = bloomIndexes checksum f key := by
  unfold bloomIndexes hashFunc
  rw [same.nfuncs, same.countsPerFunc]

/-- The header does not reach into the counters. -/
theorem counts_setHeaderCount (b : Bitmap) (count : Nat) {offset : Nat}
    (beyond : HEADER_BYTES ≤ offset) : counts (setHeaderCount b count) offset = counts b offset := by
  funext index
  have outside : ¬ (8 ≤ countAccess index offset ∧ countAccess index offset < 12) := by
    simp only [countAccess, HEADER_BYTES] at *
    omega
  simp only [counts, setHeaderCount, if_neg outside]

theorem counts_foldl {op : Bitmap → Nat → Bitmap} {spec : (Nat → Nat) → Nat → Nat → Nat}
    {offset : Nat} (each : ∀ b index, counts (op b index) offset = spec (counts b offset) index)
    (b : Bitmap) (indexes : List Nat) :
    counts (indexes.foldl op b) offset = indexes.foldl spec (counts b offset) := by
  induction indexes generalizing b with
  | nil => rfl
  | cons index indexes ih => rw [List.foldl_cons, List.foldl_cons, ih, each]

/-- Adding a key increments its counters. -/
theorem counters_add (checksum : Checksum) (beyond : HEADER_BYTES ≤ f.offset) (key : Nat) :
    (mixCountingBloomFilterAdd checksum f key).counters =
      (bloomIndexes checksum f key).foldl (Counters.increment 15) f.counters := by
  refine (counts_setHeaderCount _ _ beyond).trans (counts_foldl (fun b index => ?_) _ _)
  exact (counts_increment b index f.offset).1

/-- Removing a key decrements its counters. -/
theorem counters_remove (checksum : Checksum) (beyond : HEADER_BYTES ≤ f.offset) (key : Nat) :
    (mixCountingBloomFilterRemove checksum f key).counters =
      (bloomIndexes checksum f key).foldl Counters.decrement f.counters := by
  refine (counts_setHeaderCount _ _ beyond).trans (counts_foldl (fun b index => ?_) _ _)
  exact (counts_decrement b index f.offset).1

/-- A key tests positive when all its counters are positive. -/
theorem test_eq_one_iff (checksum : Checksum) (f : BloomFilter) (key : Nat) :
    mixCountingBloomFilterTest checksum f key = 1 ↔
      ∀ index ∈ bloomIndexes checksum f key, 0 < f.counters index := by
  unfold mixCountingBloomFilterTest
  have all : ((bloomIndexes checksum f key).all fun index =>
      mixCountingBitmapCheck f.bitmap index f.offset != 0) = true ↔
        ∀ index ∈ bloomIndexes checksum f key, 0 < f.counters index := by
    rw [List.all_eq_true]
    refine forall₂_congr fun index _ => ?_
    rw [bne_iff_ne, mixCountingBitmapCheck_ne_zero_iff]
    rfl
  rw [← all]
  split
  next yes => exact iff_of_true rfl yes
  next no => exact iff_of_false (by decide) no

end BloomFilter

/-! ## Histories -/

inductive BloomCall
  | add (key : Nat)
  | remove (key : Nat)
deriving DecidableEq

/-- The filter, and the keys added and not yet removed. -/
structure BloomState where
  filter : BloomFilter
  added : List Nat

/-- A call; a remove that matches no earlier add is not made. -/
def bloomStep (checksum : Checksum) (s : BloomState) : BloomCall → Option BloomState
  | .add key => some
      { filter := mixCountingBloomFilterAdd checksum s.filter key, added := key :: s.added }
  | .remove key =>
      if key ∈ s.added then some
        { filter := mixCountingBloomFilterRemove checksum s.filter key, added := s.added.erase key }
      else none

def bloomStart (nfuncs countsPerFunc : Nat) : BloomState :=
  { filter := mixCountingBloomFilterInit nfuncs countsPerFunc, added := [] }

/-- No increment of the call is refused: there is room for the key in each of its counters. -/
def BloomRoom (checksum : Checksum) (s : BloomState) : BloomCall → Prop
  | .add key =>
      let indexes := bloomIndexes checksum s.filter key
      ∀ index ∈ indexes, s.filter.counters index + indexes.count index ≤ 15
  | .remove _ => True

instance (checksum : Checksum) (s : BloomState) : (c : BloomCall) → Decidable (BloomRoom checksum s c)
  | .add key => inferInstanceAs (Decidable (∀ index ∈ bloomIndexes checksum s.filter key,
      s.filter.counters index + (bloomIndexes checksum s.filter key).count index ≤ 15))
  | .remove _ => isTrue trivial

/-- Each counter counts how often the keys pick it. -/
structure Counted (checksum : Checksum) (s : BloomState) : Prop where
  beyond : HEADER_BYTES ≤ s.filter.offset
  counters : ∀ index, s.filter.counters index =
    (s.added.flatMap (bloomIndexes checksum s.filter)).count index

section

variable {checksum : Checksum} {s t : BloomState} {c : BloomCall} {nfuncs countsPerFunc : Nat}

theorem bloomStep_sizes (stepped : bloomStep checksum s c = some t) :
    BloomFilter.SameSizes s.filter t.filter := by
  cases c with
  | add key =>
      cases stepped
      exact ⟨rfl, rfl, rfl⟩
  | remove key =>
      rw [bloomStep] at stepped
      split at stepped
      next =>
        cases stepped
        exact ⟨rfl, rfl, rfl⟩
      next => cases stepped

theorem bloomStep_remove {key : Nat} (stepped : bloomStep checksum s (.remove key) = some t) :
    key ∈ s.added ∧
      t = { filter := mixCountingBloomFilterRemove checksum s.filter key,
            added := s.added.erase key } := by
  rw [bloomStep] at stepped
  split at stepped
  next present => exact ⟨present, (Option.some.inj stepped).symm⟩
  next => cases stepped

theorem Counted.start (checksum : Checksum) (nfuncs countsPerFunc : Nat) :
    Counted checksum (bloomStart nfuncs countsPerFunc) where
  beyond := Nat.le_refl _
  counters := fun index => by
    have zero : countHalf index 0#8 = 0 := by
      unfold countHalf
      split <;> rfl
    exact zero

/-- A call that finds room keeps the counters right. -/
theorem Counted.step (counted : Counted checksum s) (room : BloomRoom checksum s c)
    (stepped : bloomStep checksum s c = some t) : Counted checksum t := by
  have sizes := bloomStep_sizes stepped
  have indexes := funext (sizes.indexes checksum)
  refine ⟨sizes.offset ▸ counted.beyond, fun index => ?_⟩
  rw [indexes]
  cases c with
  | add key =>
      cases stepped
      have added := BloomFilter.counters_add checksum counted.beyond key
      simp only [added, Counters.increments_eq room, counted.counters, List.flatMap_cons,
        List.count_append, Nat.add_comm]
  | remove key =>
      obtain ⟨present, rfl⟩ := bloomStep_remove stepped
      have removed := BloomFilter.counters_remove checksum counted.beyond key
      have split := ((List.perm_cons_erase present).flatMap_right
        (bloomIndexes checksum s.filter)).count_eq index
      rw [List.flatMap_cons, List.count_append] at split
      simp only [removed, Counters.decrements_eq, counted.counters, split, Nat.add_sub_cancel_left]

/-- A key that is still there tests positive. -/
theorem Counted.test (counted : Counted checksum s) {key : Nat} (present : key ∈ s.added) :
    mixCountingBloomFilterTest checksum s.filter key = 1 := by
  rw [BloomFilter.test_eq_one_iff]
  intro index picked
  rw [counted.counters]
  exact List.count_pos_iff.2 (List.mem_flatMap.2 ⟨key, present, picked⟩)

/-- The keys left are those added more often than removed. -/
theorem count_added {calls : List BloomCall} (ran : exec (bloomStep checksum) s calls = some t)
    (key : Nat) :
    t.added.count key + calls.count (.remove key) = s.added.count key + calls.count (.add key) := by
  induction calls generalizing s with
  | nil => cases ran; rfl
  | cons c calls ih =>
      obtain ⟨m, stepped, rest⟩ := exec_cons_eq_some.1 ran
      have after := ih rest
      cases c with
      | add other =>
          cases stepped
          simp only [List.count_cons, beq_iff_eq, BloomCall.add.injEq, reduceCtorEq, if_false]
            at after ⊢
          omega
      | remove other =>
          obtain ⟨present, rfl⟩ := bloomStep_remove stepped
          have some_ := List.count_pos_iff.2 present
          simp only [List.count_erase, List.count_cons, beq_iff_eq, BloomCall.remove.injEq,
            reduceCtorEq, if_false] at after ⊢
          by_cases same : other = key
          · rw [if_pos same] at after ⊢
            rw [same] at some_
            omega
          · rw [if_neg same] at after ⊢
            omega

/-- **No false negatives, as long as no increment is refused.** -/
theorem bloomFilter_no_false_negatives {calls : List BloomCall}
    (run : Run (bloomStep checksum) (BloomRoom checksum) (bloomStart nfuncs countsPerFunc) calls t)
    {key : Nat} (more : calls.count (.remove key) < calls.count (.add key)) :
    mixCountingBloomFilterTest checksum t.filter key = 1 := by
  have counted : Counted checksum t :=
    run.invariant (fun _ _ _ inv room stepped => inv.step room stepped) (.start checksum _ _)
  have left := count_added run.exec key
  refine counted.test (List.count_pos_iff.1 ?_)
  omega

/-- Removing keys decrements the counters of all of them. -/
theorem exec_removes (checksum : Checksum) (keys : List Nat) {s : BloomState} {rest : List Nat}
    (beyond : HEADER_BYTES ≤ s.filter.offset) (added : s.added.Perm (rest ++ keys)) :
    ∃ t, exec (bloomStep checksum) s (keys.map .remove) = some t ∧ t.added.Perm rest ∧
      BloomFilter.SameSizes s.filter t.filter ∧
      t.filter.counters =
        (keys.flatMap (bloomIndexes checksum s.filter)).foldl Counters.decrement s.filter.counters := by
  induction keys generalizing s with
  | nil => exact ⟨s, rfl, by simpa using added, ⟨rfl, rfl, rfl⟩, rfl⟩
  | cons key keys ih =>
      have present : key ∈ s.added := added.mem_iff.2 (List.mem_append_right _ List.mem_cons_self)
      let next : BloomState :=
        { filter := mixCountingBloomFilterRemove checksum s.filter key, added := s.added.erase key }
      have left : next.added.Perm (rest ++ keys) :=
        (List.cons_perm_iff_perm_erase.1 ((List.perm_middle.symm).trans added.symm)).2.symm
      obtain ⟨t, ran, stays, same, counters⟩ := ih (s := next) beyond left
      refine ⟨t, exec_cons_eq_some.2 ⟨next, if_pos present, ran⟩, stays,
        ⟨same.nfuncs, same.countsPerFunc, same.offset⟩, ?_⟩
      have first : next.filter.counters =
          (bloomIndexes checksum s.filter key).foldl Counters.decrement s.filter.counters :=
        BloomFilter.counters_remove checksum beyond key
      rw [counters, first, List.flatMap_cons, List.foldl_append]
      rfl

/-- After a refused increment the removal of all other keys loses the key. -/
theorem refused_add_loses (counted : Counted checksum s) {key : Nat}
    (distinct : (bloomIndexes checksum s.filter key).Nodup)
    (refused : ¬ BloomRoom checksum s (.add key)) :
    ∃ t, exec (bloomStep checksum) s (.add key :: s.added.map .remove) = some t ∧
      t.added = [key] ∧ mixCountingBloomFilterTest checksum t.filter key = 0 := by
  obtain ⟨index, picked, full⟩ : ∃ index ∈ bloomIndexes checksum s.filter key,
      s.filter.counters index = 15 := by
    by_contra low
    refine refused fun index picked => ?_
    have le : s.filter.counters index ≤ 15 := counts_le _ _ _
    have below : s.filter.counters index ≠ 15 := fun full => low ⟨index, picked, full⟩
    have once := List.nodup_iff_count.1 distinct index
    omega
  let after : BloomState :=
    { filter := mixCountingBloomFilterAdd checksum s.filter key, added := key :: s.added }
  have added : after.added.Perm ([key] ++ s.added) := List.Perm.refl _
  obtain ⟨t, ran, stays, same, counters⟩ :=
    exec_removes checksum s.added (s := after) counted.beyond added
  refine ⟨t, exec_cons_eq_some.2 ⟨after, rfl, ran⟩, List.perm_singleton.1 stays, ?_⟩
  have start : after.filter.counters index = 15 := by
    rw [show after.filter.counters = _ from BloomFilter.counters_add checksum counted.beyond key,
      Counters.increments_top full]
  have zero : t.filter.counters index = after.filter.counters index -
      (s.added.flatMap (bloomIndexes checksum s.filter)).count index := by
    rw [counters, Counters.decrements_eq]
    rfl
  rw [start, ← counted.counters, full] at zero
  have lost : ¬ mixCountingBloomFilterTest checksum t.filter key = 1 := by
    rw [BloomFilter.test_eq_one_iff]
    intro positive
    have picked' : index ∈ bloomIndexes checksum t.filter key := by
      rw [same.indexes]
      exact picked
    exact absurd (positive index picked') (by omega)
  unfold mixCountingBloomFilterTest at lost ⊢
  split at lost
  next => exact absurd rfl lost
  next no => rw [if_neg no]

end

/-- Of two keys the second stays, and is found. -/
theorem bloomFilter_no_false_negatives_of_two :
    let checksum : Checksum := fun key => (key, 1)
    let calls : List BloomCall := [.add 7, .add 9, .remove 7]
    ∃ t, Run (bloomStep checksum) (BloomRoom checksum) (bloomStart 2 10) calls t ∧
      mixCountingBloomFilterTest checksum t.filter 9 = 1 := by
  intro checksum calls
  have checked : (exec (fun s c => if decide (BloomRoom checksum s c) then bloomStep checksum s c
      else none) (bloomStart 2 10) calls).isSome = true := by
    decide +kernel
  obtain ⟨t, ran⟩ := Option.isSome_iff_exists.1 checked
  have run := Run.of_checked (fun _ _ => of_decide_eq_true) ran
  exact ⟨t, run, bloomFilter_no_false_negatives run (by decide)⟩

/-- A key added sixteen times and removed fifteen times is lost. -/
theorem bloomFilter_false_negative :
    let checksum : Checksum := fun key => (key, 1)
    let calls := List.replicate 16 (BloomCall.add 7) ++ List.replicate 15 (.remove 7)
    calls.count (.remove 7) < calls.count (.add 7) ∧
      (exec (bloomStep checksum) (bloomStart 2 10) calls).map
        (fun t => mixCountingBloomFilterTest checksum t.filter 7) = some 0 := by
  decide +kernel

end Mixdk
