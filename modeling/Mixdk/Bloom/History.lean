/-
# Bloom.History -- the filter is made of the keys it holds

While no increment is refused nothing in the array but the counters and the count of the header
changes (`SameFront`), and both are those of the keys added and not removed (`MadeOf`).  So the
order of a history, and the keys that came and went, leave no trace: the filter is byte for byte
the one that is given the keys left, one after another in any order, from the start
(`bloomFilter_rebuilt`).
-/
import Mixdk.Bloom.PackedCounters
import Mixdk.Bloom.Murmur

namespace Mixdk

set_option autoImplicit false

open Transition

/-! ## The header -/

section

variable {b b' b'' : Bitmap} {offset : Nat}

theorem headerCount_eq (b : Bitmap) : headerCount b = (b.array 8).toNat + 256 * ((b.array 9).toNat +
    256 * ((b.array 10).toNat + 256 * (b.array 11).toNat)) := rfl

/-- The count is read as it was written. -/
theorem headerCount_setHeaderCount (b : Bitmap) (count : Nat) :
    headerCount (setHeaderCount b count) = count % 2 ^ 32 := by
  simp only [headerCount_eq, setHeaderCount, Nat.reduceLeDiff, Nat.reduceLT, and_self, if_true,
    Nat.reduceSub, Nat.reducePow, BitVec.toNat_ofNat]
  omega

/-- Two bitmaps that differ in the counters only. -/
structure SameFront (b b' : Bitmap) : Prop where
  bytes : b'.bytes = b.bytes
  nextBit : b'.nextBit = b.nextBit
  front : ∀ p < HEADER_BYTES, b'.array p = b.array p

theorem SameFront.trans (first : SameFront b b') (second : SameFront b' b'') : SameFront b b'' where
  bytes := second.bytes.trans first.bytes
  nextBit := second.nextBit.trans first.nextBit
  front := fun p below => (second.front p below).trans (first.front p below)

theorem SameFront.header (same : SameFront b b') : headerCount b' = headerCount b := by
  have byte : ∀ p < 12, b'.array p = b.array p := fun p below =>
    same.front p (below.trans (by decide))
  rw [headerCount_eq, headerCount_eq, byte 8 (by decide), byte 9 (by decide), byte 10 (by decide),
    byte 11 (by decide)]

theorem sameFront_update (b : Bitmap) (index : Nat) (n : BitVec 8) (beyond : HEADER_BYTES ≤ offset) :
    SameFront b { b with array := Function.update b.array (countAccess index offset) n } where
  bytes := rfl
  nextBit := rfl
  front := by
    intro p below
    have other : p ≠ countAccess index offset := by
      unfold countAccess
      omega
    exact Function.update_of_ne other _ _

theorem sameFront_increment (b : Bitmap) (index : Nat) (beyond : HEADER_BYTES ≤ offset) :
    SameFront b (mixCountingBitmapIncrement b index offset).2 := by
  unfold mixCountingBitmapIncrement
  simp only
  split
  next => exact ⟨rfl, rfl, fun _ _ => rfl⟩
  next => exact sameFront_update b index _ beyond

theorem sameFront_decrement (b : Bitmap) (index : Nat) (beyond : HEADER_BYTES ≤ offset) :
    SameFront b (mixCountingBitmapDecrement b index offset).2 := by
  unfold mixCountingBitmapDecrement
  simp only
  split
  next => exact ⟨rfl, rfl, fun _ _ => rfl⟩
  next => exact sameFront_update b index _ beyond

theorem sameFront_foldl {op : Bitmap → Nat → Bitmap} (each : ∀ b index, SameFront b (op b index))
    (b : Bitmap) (indexes : List Nat) : SameFront b (indexes.foldl op b) := by
  induction indexes generalizing b with
  | nil => exact ⟨rfl, rfl, fun _ _ => rfl⟩
  | cons index indexes ih => exact (each b index).trans (ih (op b index))

end

attribute [ext] Bitmap BloomFilter

/-! ## What the filter is made of -/

/-- Every byte of the filter is accounted for by the keys it holds. -/
structure MadeOf (checksum : Checksum) (nfuncs countsPerFunc : Nat) (s : BloomState) : Prop where
  counted : Counted checksum s
  sizes : BloomFilter.SameSizes (mixCountingBloomFilterInit nfuncs countsPerFunc) s.filter
  front : SameFront (setHeaderCount (mixCountingBloomFilterInit nfuncs countsPerFunc).bitmap
    (u32 s.added.length)) s.filter.bitmap

section

variable {checksum : Checksum} {nfuncs countsPerFunc : Nat} {s t : BloomState} {c : BloomCall}

theorem MadeOf.start (checksum : Checksum) (nfuncs countsPerFunc : Nat) :
    MadeOf checksum nfuncs countsPerFunc (bloomStart nfuncs countsPerFunc) where
  counted := .start checksum _ _
  sizes := ⟨rfl, rfl, rfl⟩
  front := by
    refine ⟨rfl, rfl, fun p _ => ?_⟩
    -- a count of 0 is four bytes 0, as all bytes are at the start
    simp only [setHeaderCount, bloomStart, mixCountingBloomFilterInit, mixBitmapInit,
      List.length_nil, u32, Nat.zero_mod, Nat.zero_div, ite_self]

theorem MadeOf.header (written : MadeOf checksum nfuncs countsPerFunc s) :
    headerCount s.filter.bitmap = u32 s.added.length := by
  rw [written.front.header, headerCount_setHeaderCount, u32, Nat.mod_mod]

/-- The count of the header is replaced, the rest of the front stays. -/
theorem MadeOf.recount {b : Bitmap} (written : MadeOf checksum nfuncs countsPerFunc s)
    (same : SameFront s.filter.bitmap b) (count : Nat) :
    SameFront (setHeaderCount (mixCountingBloomFilterInit nfuncs countsPerFunc).bitmap count)
      (setHeaderCount b count) where
  bytes := same.bytes.trans written.front.bytes
  nextBit := same.nextBit.trans written.front.nextBit
  front := by
    intro p below
    have kept := (written.front.trans same).front p below
    simp only [setHeaderCount] at kept ⊢
    split
    next => rfl
    next outside =>
      rw [if_neg outside] at kept
      exact kept

/-- A call that finds room keeps every byte accounted for. -/
theorem MadeOf.step (written : MadeOf checksum nfuncs countsPerFunc s)
    (room : BloomRoom checksum s c) (stepped : bloomStep checksum s c = some t) :
    MadeOf checksum nfuncs countsPerFunc t := by
  have beyond := written.counted.beyond
  have sizes := bloomStep_sizes stepped
  refine ⟨written.counted.step room stepped, ⟨sizes.nfuncs.trans written.sizes.nfuncs,
    sizes.countsPerFunc.trans written.sizes.countsPerFunc,
    sizes.offset.trans written.sizes.offset⟩, ?_⟩
  cases c with
  | add key =>
      cases stepped
      have same := sameFront_foldl (fun b index => sameFront_increment b index beyond)
        s.filter.bitmap (bloomIndexes checksum s.filter key)
      have count : u32 (u32 s.added.length + 1) = u32 (key :: s.added).length := by
        rw [List.length_cons, u32, u32, u32, Nat.mod_add_mod]
      rw [← written.header, ← same.header] at count
      have recounted := written.recount same (u32 (key :: s.added).length)
      simp only [mixCountingBloomFilterAdd, count]
      exact recounted
  | remove key =>
      obtain ⟨present, rfl⟩ := bloomStep_remove stepped
      have same := sameFront_foldl (fun b index => sameFront_decrement b index beyond)
        s.filter.bitmap (bloomIndexes checksum s.filter key)
      have count : u32 (u32 s.added.length + (2 ^ 32 - 1)) = u32 (s.added.erase key).length := by
        have some_ := List.length_pos_of_mem present
        rw [List.length_erase_of_mem present, u32, u32, u32]
        omega
      rw [← written.header, ← same.header] at count
      have recounted := written.recount same (u32 (s.added.erase key).length)
      simp only [mixCountingBloomFilterRemove, count]
      exact recounted

/-- **The keys say what the filter is**, whatever their order. -/
theorem MadeOf.ext (written : MadeOf checksum nfuncs countsPerFunc s)
    (written' : MadeOf checksum nfuncs countsPerFunc t) (keys : s.added.Perm t.added) :
    s.filter = t.filter := by
  have indexes : bloomIndexes checksum s.filter = bloomIndexes checksum t.filter := by
    funext key
    rw [written.sizes.indexes, written'.sizes.indexes]
  have offset : s.filter.offset = HEADER_BYTES := written.sizes.offset
  have offset' : t.filter.offset = HEADER_BYTES := written'.sizes.offset
  have array : s.filter.bitmap.array = t.filter.bitmap.array := by
    funext p
    by_cases front : p < HEADER_BYTES
    · rw [written.front.front p front, written'.front.front p front, keys.length_eq]
    · -- behind the header the halves of the byte are two counters
      refine byte_ext fun half => ?_
      let index := 2 * (p - HEADER_BYTES) + half % 2
      have here : countAccess index HEADER_BYTES = p := by
        simp only [countAccess, index]
        omega
      have parity : index % 2 = half % 2 := by
        simp only [index]
        omega
      have picked := (keys.flatMap_right (bloomIndexes checksum t.filter)).count_eq index
      have counter := written.counted.counters index
      rw [indexes, picked, ← written'.counted.counters index] at counter
      simp only [BloomFilter.counters, counts, offset, offset', here, countHalf, parity] at counter
      exact counter
  have bytes := written.front.bytes.trans written'.front.bytes.symm
  have nextBit := written.front.nextBit.trans written'.front.nextBit.symm
  have bitmap := Bitmap.ext array bytes nextBit
  exact BloomFilter.ext (written.sizes.nfuncs.trans written'.sizes.nfuncs.symm)
    (written.sizes.countsPerFunc.trans written'.sizes.countsPerFunc.symm)
    (offset.trans offset'.symm) bitmap

/-- Keys whose picks fit can be added one after another. -/
theorem MadeOf.adds (written : MadeOf checksum nfuncs countsPerFunc s) {keys : List Nat}
    (room : ∀ index, ((keys ++ s.added).flatMap (bloomIndexes checksum s.filter)).count index ≤ 15) :
    ∃ u, Run (bloomStep checksum) (BloomRoom checksum) s (keys.map .add) u ∧
      u.added = keys.reverse ++ s.added := by
  induction keys generalizing s with
  | nil => exact ⟨s, .nil _, rfl⟩
  | cons key keys ih =>
      let next : BloomState :=
        { filter := mixCountingBloomFilterAdd checksum s.filter key, added := key :: s.added }
      have fits : BloomRoom checksum s (.add key) := by
        intro index _
        have whole := room index
        rw [List.cons_append, List.flatMap_cons, List.flatMap_append, List.count_append,
          List.count_append] at whole
        rw [written.counted.counters]
        omega
      have stepped : bloomStep checksum s (.add key) = some next := rfl
      have moved : (keys ++ next.added).Perm (key :: keys ++ s.added) := List.perm_middle
      have indexes : bloomIndexes checksum next.filter = bloomIndexes checksum s.filter :=
        funext ((bloomStep_sizes stepped).indexes checksum)
      obtain ⟨u, run, added⟩ := ih (s := next) (written.step fits stepped) fun index => by
        rw [indexes, (moved.flatMap_right _).count_eq index]
        exact room index
      refine ⟨u, .cons fits stepped run, ?_⟩
      rw [added, List.reverse_cons, List.append_assoc]
      rfl

/-- The counters of a key are those the other keys pick, or one of them is 0. -/
theorem MadeOf.test_iff (written : MadeOf checksum nfuncs countsPerFunc s) (key : Nat) :
    mixCountingBloomFilterTest checksum s.filter key = 1 ↔
      ∀ index ∈ bloomIndexes checksum s.filter key,
        ∃ other ∈ s.added, index ∈ bloomIndexes checksum s.filter other := by
  rw [BloomFilter.test_eq_one_iff]
  refine forall₂_congr fun index _ => ?_
  rw [written.counted.counters, List.count_pos_iff, List.mem_flatMap]

/-- **A history in which no increment is refused leaves the filter that the keys left make**: added
to a new filter, in any order, they find room and lead to the same bytes.  The header counts them,
and a key tests positive when each of its counters is one of theirs. -/
theorem bloomFilter_rebuilt {calls : List BloomCall}
    (run : Run (bloomStep checksum) (BloomRoom checksum) (bloomStart nfuncs countsPerFunc) calls t)
    {keys : List Nat}
    (left : ∀ key, keys.count key + calls.count (.remove key) = calls.count (.add key)) :
    Run (bloomStep checksum) (BloomRoom checksum) (bloomStart nfuncs countsPerFunc)
        (keys.map .add) { filter := t.filter, added := keys.reverse } ∧
      headerCount t.filter.bitmap = u32 keys.length ∧
      ∀ key, mixCountingBloomFilterTest checksum t.filter key = 1 ↔
        ∀ index ∈ bloomIndexes checksum t.filter key,
          ∃ other ∈ keys, index ∈ bloomIndexes checksum t.filter other := by
  have start := MadeOf.start checksum nfuncs countsPerFunc
  have written : MadeOf checksum nfuncs countsPerFunc t :=
    run.invariant (fun _ _ _ inv room stepped => inv.step room stepped) start
  have same : keys.Perm t.added := by
    refine List.perm_iff_count.2 fun key => ?_
    have counted := count_added run.exec key
    have none_ : (bloomStart nfuncs countsPerFunc).added.count key = 0 := rfl
    have balance := left key
    omega
  refine ⟨?_, by rw [written.header, same.length_eq], fun key => ?_⟩
  · have room : ∀ index, ((keys ++ (bloomStart nfuncs countsPerFunc).added).flatMap
        (bloomIndexes checksum (bloomStart nfuncs countsPerFunc).filter)).count index ≤ 15 := by
      intro index
      have indexes : bloomIndexes checksum (bloomStart nfuncs countsPerFunc).filter =
          bloomIndexes checksum t.filter := funext fun key => (written.sizes.indexes _ key).symm
      have picked := (same.flatMap_right (bloomIndexes checksum t.filter)).count_eq index
      have nothing : (bloomStart nfuncs countsPerFunc).added = [] := rfl
      rw [nothing, List.append_nil, indexes, picked, ← written.counted.counters]
      exact counts_le _ _ _
    obtain ⟨u, rebuilt, added⟩ := start.adds room
    have written' : MadeOf checksum nfuncs countsPerFunc u :=
      rebuilt.invariant (fun _ _ _ inv room stepped => inv.step room stepped) start
    have reversed : u.added = keys.reverse := added.trans (List.append_nil _)
    have back : u.added.Perm t.added := by
      rw [reversed]
      exact (List.reverse_perm keys).trans same
    have whole : u = { filter := t.filter, added := keys.reverse } := by
      rw [← written'.ext written back, ← reversed]
    rwa [whole] at rebuilt
  · rw [written.test_iff]
    refine forall₂_congr fun index _ => exists_congr fun other => ?_
    rw [same.mem_iff]

end

/-- Seven is added, nine comes and goes, and seven stays twice. -/
theorem bloomFilter_rebuilt_of_two :
    let calls : List BloomCall := [.add 7, .add 9, .add 7, .remove 9]
    ∃ t, Run (bloomStep keyChecksum) (BloomRoom keyChecksum) (bloomStart 2 10) calls t ∧
      Run (bloomStep keyChecksum) (BloomRoom keyChecksum) (bloomStart 2 10) [.add 7, .add 7]
        { filter := t.filter, added := [7, 7] } := by
  intro calls
  have checked : (exec (fun s c => if decide (BloomRoom keyChecksum s c) then
      bloomStep keyChecksum s c else none) (bloomStart 2 10) calls).isSome = true := by
    decide +kernel
  obtain ⟨t, ran⟩ := Option.isSome_iff_exists.1 checked
  have run := Run.of_checked (fun _ _ => of_decide_eq_true) ran
  have left : ∀ key, [7, 7].count key + calls.count (.remove key) = calls.count (.add key) := by
    intro key
    simp only [calls, List.count_cons, List.count_nil, beq_iff_eq, BloomCall.add.injEq,
      BloomCall.remove.injEq, reduceCtorEq, if_false]
    omega
  exact ⟨t, run, (bloomFilter_rebuilt run left).1⟩

end Mixdk
