/-
# Index.Update -- what redirect_write makes of the index

One spec for each way `redirect_write` can go, over an index whose segments are all
`Indexed`: the outcomes of a small write (`SmallWrite`), the entries a large write
takes out (`Cleared`), and the emptied segment after a migration.
-/
import Mixdk.Core.Worker
import Mixdk.Index.Indexed
import Mixdk.Migration.Segment

namespace Mixdk

open scoped List

set_option autoImplicit false

/-- Every segment's index is in order. -/
def AllIndexed (md : Metadata) : Prop := ∀ idx, Indexed md.perBlockNum (md.segments idx)

theorem AllIndexed.setSegment {md : Metadata} (all : AllIndexed md) {idx : SegIdx} {seg : Segment}
    (ok : Indexed md.perBlockNum seg) : AllIndexed (md.setSegment idx seg) := by
  intro j
  by_cases same : j = idx
  · subst same
    rw [Metadata.setSegment_self]
    exact ok
  · rw [Metadata.setSegment_of_ne md seg same]
    exact all j

/-- The blocks a task names can be keys. -/
def InRange (task : IoTask) : Prop := 0 < task.len ∧ task.offset + task.len ≤ NO_ENTRY

theorem InRange.key {task : IoTask} (inRange : InRange task) : task.offset < NO_ENTRY := by
  have := inRange.1
  have := inRange.2
  omega

theorem u32_key {k : Nat} (inside : k < NO_ENTRY) : u32 k = k :=
  u32_of_lt (by simp only [NO_ENTRY] at inside; omega)

section

variable {md : Metadata} {idx : SegIdx}

/-! ## Allocation -/

/-- The segment between the search for a slot and its entry in the table. -/
def marked (seg : Segment) (v : Nat) : Segment :=
  { seg with bitmap :=
      { (mixBitmapSetBit seg.bitmap v).2 with nextBit := (v + 1) / seg.bitmap.bits } }

/-- A search that ends has found the first clear bit. -/
theorem nextFreeBlock_some (ok : Indexed md.perBlockNum (md.segments idx))
    (room : (md.segments idx).usedBlockNum ≠ md.perBlockNum) {z : Int} {md' : Metadata}
    (got : mixGetNextFreeBlock md idx = some (z, md')) :
    ∃ v : Nat, FirstZero (md.segments idx).bitmap v ∧ z = v ∧
      md' = md.setSegment idx (marked (md.segments idx) v) := by
  simp only [mixGetNextFreeBlock, if_neg room, Option.map_eq_some_iff] at got
  obtain ⟨⟨z', b⟩, search, eq⟩ := got
  obtain ⟨rfl, rfl⟩ := Prod.mk.inj eq
  have bits : 0 < (md.segments idx).bitmap.bits := by
    by_contra none_
    rw [mixBitmapNextZeroBit, if_pos (by omega)] at search
    cases search
  obtain ⟨d, below, v, at_, rfl, inside, clear, before, rfl⟩ :=
    nextZeroBit_some (hint_lt ok.hint bits) search
  exact ⟨v, ⟨inside, clear, d, below, at_, before⟩, rfl, rfl⟩

/-- The search does not end on a full bitmap, nor on one without bits. -/
theorem nextFreeBlock_none_iff (ok : Indexed md.perBlockNum (md.segments idx))
    (room : (md.segments idx).usedBlockNum ≠ md.perBlockNum) :
    mixGetNextFreeBlock md idx = none ↔
      ∀ i < (md.segments idx).bitmap.bits, mixBitmapTestBit (md.segments idx).bitmap i = true := by
  simp only [mixGetNextFreeBlock, if_neg room, Option.map_eq_none_iff]
  by_cases bits : 0 < (md.segments idx).bitmap.bits
  · exact nextZeroBit_none_iff _ (hint_lt ok.hint bits)
  · rw [mixBitmapNextZeroBit, if_pos (by omega)]
    simp only [true_iff]
    omega

/-- What `mix_write_redirect_blockmeta` makes of a slot the search has found. -/
theorem writeRedirectBlockmeta_marked (ok : Indexed md.perBlockNum (md.segments idx)) {v : Nat}
    (first : FirstZero (md.segments idx).bitmap v) (key : Nat) :
    (AllocSafe (md.segments idx).bitmap idx →
      mixWriteRedirectBlockmeta (md.setSegment idx (marked (md.segments idx) v)) idx key v =
        md.setSegment idx ((md.segments idx).entered idx key v)) ∧
    (¬ AllocSafe (md.segments idx).bitmap idx →
      mixWriteRedirectBlockmeta (md.setSegment idx (marked (md.segments idx) v)) idx key v =
        md.setSegment idx ((md.segments idx).leaked idx v)) := by
  have small : v < 2 ^ 31 := by
    have := first.lt
    have := ok.bits_le
    have := ok.small
    simp only [SEGMENT_NUM] at this
    omega
  have old : (mixBitmapSetBit (marked (md.segments idx) v).bitmap
      ((v - idx) / SEGMENT_NUM)).1 = true ↔ AllocSafe (md.segments idx).bitmap idx := by
    rw [← first.agrees_iff idx ok.hint, setBit_old]
    have set := testBit_setBit (md.segments idx).bitmap v ((v - idx) / SEGMENT_NUM)
    rw [show mixBitmapTestBit (marked (md.segments idx) v).bitmap _ = _ from set,
      Bool.or_eq_true, decide_eq_true_iff]
  simp only [mixWriteRedirectBlockmeta, Metadata.setSegment_self, redirectBit_eq idx small,
    Metadata.setSegment_setSegment]
  refine ⟨fun safe => ?_, fun notSafe => ?_⟩
  · rw [if_pos (old.2 safe), ofInt32_of_lt (by omega)]
    rfl
  · rw [if_neg (fun set => notSafe (old.1 set))]
    rfl

/-! ## Small writes -/

/-- The effect of a small write that puts its block into slot `v`. -/
def bufferWrite (md : Metadata) (task : IoTask) (idx : SegIdx) (v : Nat) : List Action :=
  [.writeToBuffer task.buf task.offset (md.bufferBlock idx v) task.opcode]

/-- What can come of a small write. -/
inductive SmallWrite (md : Metadata) (task : IoTask) (idx : SegIdx) : WriteResult → Prop
  | overwrite {v : Nat} (found : (md.segments idx).hash.find? task.offset = some v) :
      SmallWrite md task idx (.done md (bufferWrite md task idx v) task.len)
  | full (absent : (md.segments idx).hash.find? task.offset = none)
      (used : (md.segments idx).usedBlockNum = md.perBlockNum) : SmallWrite md task idx .full
  | spins (absent : (md.segments idx).hash.find? task.offset = none)
      (room : (md.segments idx).usedBlockNum ≠ md.perBlockNum)
      (allSet : ∀ i < (md.segments idx).bitmap.bits,
        mixBitmapTestBit (md.segments idx).bitmap i = true) : SmallWrite md task idx .spins
  | enter {v : Nat} (absent : (md.segments idx).hash.find? task.offset = none)
      (room : (md.segments idx).usedBlockNum ≠ md.perBlockNum)
      (first : FirstZero (md.segments idx).bitmap v)
      (safe : AllocSafe (md.segments idx).bitmap idx) :
      SmallWrite md task idx (.done
        (md.setSegment idx ((md.segments idx).entered idx task.offset v))
        (bufferWrite md task idx v) task.len)
  | leak {v : Nat} (absent : (md.segments idx).hash.find? task.offset = none)
      (room : (md.segments idx).usedBlockNum ≠ md.perBlockNum)
      (first : FirstZero (md.segments idx).bitmap v)
      (notSafe : ¬ AllocSafe (md.segments idx).bitmap idx) :
      SmallWrite md task idx (.done
        (md.setSegment idx ((md.segments idx).leaked idx v))
        (bufferWrite md task idx v) task.len)

theorem bufferWrite_inj {task : IoTask} {v w : Nat}
    (same : bufferWrite md task idx v = bufferWrite md task idx w) : v = w := by
  simpa [bufferWrite, Metadata.bufferBlock] using same

/-- How a small write into slot `v` came about. -/
theorem SmallWrite.done_cases {task : IoTask} {md' : Metadata} {v ret : Nat}
    (outcome : SmallWrite md task idx (.done md' (bufferWrite md task idx v) ret)) :
    ((md.segments idx).hash.find? task.offset = some v ∧ md' = md) ∨
    ((md.segments idx).hash.find? task.offset = none ∧
      (md.segments idx).usedBlockNum ≠ md.perBlockNum ∧ FirstZero (md.segments idx).bitmap v ∧
      ((AllocSafe (md.segments idx).bitmap idx ∧
          md' = md.setSegment idx ((md.segments idx).entered idx task.offset v)) ∨
        (¬ AllocSafe (md.segments idx).bitmap idx ∧
          md' = md.setSegment idx ((md.segments idx).leaked idx v)))) := by
  generalize effect : bufferWrite md task idx v = actions at outcome
  cases outcome with
  | overwrite found => exact Or.inl ⟨bufferWrite_inj effect ▸ found, rfl⟩
  | enter absent room first safe =>
      obtain rfl := bufferWrite_inj effect
      exact Or.inr ⟨absent, room, first, Or.inl ⟨safe, rfl⟩⟩
  | leak absent room first notSafe =>
      obtain rfl := bufferWrite_inj effect
      exact Or.inr ⟨absent, room, first, Or.inr ⟨notSafe, rfl⟩⟩

/-- The slot written to belongs to the segment. -/
theorem SmallWrite.slot_lt (all : AllIndexed md) {task : IoTask} {md' : Metadata} {v ret : Nat}
    (outcome : SmallWrite md task idx (.done md' (bufferWrite md task idx v) ret)) :
    v < md.perBlockNum := by
  rcases outcome.done_cases with ⟨found, -⟩ | ⟨-, -, first, -⟩
  · exact ((all idx).slot_small ((all idx).find?_eq_some_iff.1 found)).1
  · exact Nat.lt_of_lt_of_le first.lt (all idx).bits_le

/-- What comes of a slot the search has found. -/
theorem writeToNewSlot_marked (ok : Indexed md.perBlockNum (md.segments idx)) {task : IoTask}
    (inRange : InRange task) (absent : (md.segments idx).hash.find? task.offset = none)
    (room : (md.segments idx).usedBlockNum ≠ md.perBlockNum) {v : Nat}
    (first : FirstZero (md.segments idx).bitmap v) :
    SmallWrite md task idx
      (writeToNewSlot (md.setSegment idx (marked (md.segments idx) v)) task idx v) := by
  have key : u32 task.offset = task.offset := u32_key inRange.key
  have small : v < 2 ^ 32 := by
    have := first.lt
    have := ok.bits_le
    have := ok.small
    simp only [SEGMENT_NUM] at this
    omega
  obtain ⟨onSafe, onUnsafe⟩ := writeRedirectBlockmeta_marked ok first task.offset
  unfold writeToNewSlot writeToSlot
  rw [key, ofInt32_of_lt small]
  by_cases safe : AllocSafe (md.segments idx).bitmap idx
  · rw [onSafe safe]
    exact .enter absent room first safe
  · rw [onUnsafe safe]
    exact .leak absent room first safe

theorem redirectWrite_small (ok : Indexed md.perBlockNum (md.segments idx)) {task : IoTask}
    (inRange : InRange task) (small : task.len ≤ WRITE_THRESHOLD) :
    SmallWrite md task idx (redirectWrite md task idx) := by
  have key : u32 task.offset = task.offset := u32_key inRange.key
  rw [redirectWrite, if_pos small]
  cases found : (md.segments idx).hash.find? task.offset with
  | some v =>
      have test : mixBufferBlockTest md task.offset idx = v := by
        rw [ok.bufferBlockTest, key, found]
      have below := (ok.slot_small (ok.find?_eq_some_iff.1 found)).2
      simp only at below
      simp only [test]
      rw [if_neg (by omega), writeToSlot, ofInt32_of_lt (by omega)]
      exact .overwrite found
  | none =>
      have test : mixBufferBlockTest md task.offset idx = -1 := by
        rw [ok.test_eq_neg_one_iff, key, found]
      simp only [test, if_true]
      by_cases room : (md.segments idx).usedBlockNum = md.perBlockNum
      · rw [mixGetNextFreeBlock]
        simp only [room, if_true]
        exact .full found room
      · cases got : mixGetNextFreeBlock md idx with
        | none => exact .spins found room ((nextFreeBlock_none_iff ok room).1 got)
        | some result =>
            obtain ⟨z, md'⟩ := result
            obtain ⟨v, first, rfl, rfl⟩ := nextFreeBlock_some ok room got
            simp only
            rw [if_neg (by omega)]
            exact writeToNewSlot_marked ok inRange found room first

/-! ## Large writes -/

/-- Clearing blocks `offset`, `offset + 1`, ... took out the pairs `removed`: it stops at the
first block that is not in the table. -/
structure Cleared (idx : SegIdx) (offset n : Nat) (md md' : Metadata) (removed : List MixKv) :
    Prop where
  entries : (md.segments idx).hash.entries.Perm (removed ++ (md'.segments idx).hash.entries)
  keys : removed.map Prod.fst = List.range' offset removed.length
  length_le : removed.length ≤ n
  stops : removed.length < n → (md'.segments idx).hash.find? (offset + removed.length) = none
  indexed : Indexed md.perBlockNum (md'.segments idx)
  tight : Exact (md.segments idx) → Exact (md'.segments idx)
  bits : (md'.segments idx).bitmap.bits = (md.segments idx).bitmap.bits
  perBlockNum : md'.perBlockNum = md.perBlockNum
  segments : ∀ j ≠ idx, md'.segments j = md.segments j

theorem clearBlockLoop_spec (n offset : Nat) (md : Metadata)
    (ok : Indexed md.perBlockNum (md.segments idx)) (inside : offset + n ≤ NO_ENTRY) :
    ∃ removed, (clearBlockLoop idx n offset md).2 =
        removed.map (fun kv => md.bufferBlock idx kv.2) ∧
      Cleared idx offset n md (clearBlockLoop idx n offset md).1 removed := by
  induction n generalizing offset md with
  | zero =>
      exact ⟨[], rfl, ⟨List.Perm.refl _, rfl, Nat.le_refl _, fun h => absurd h (Nat.lt_irrefl 0), ok,
        id, rfl, rfl, fun _ _ => rfl⟩⟩
  | succ n ih =>
      have key : u32 offset = offset := u32_key (by omega)
      rw [clearBlockLoop, key]
      cases found : (md.segments idx).hash.find? offset with
      | none =>
          have get : mixHashGet (md.segments idx).hash offset = -1 := by
            rw [mixHashGet_eq, found]
          simp only [get, if_true]
          exact ⟨[], rfl, ⟨List.Perm.refl _, rfl, Nat.zero_le _, fun _ => found, ok, id, rfl, rfl,
            fun _ _ => rfl⟩⟩
      | some v =>
          obtain ⟨get, bit⟩ := ok.value found
          simp only [get, bit]
          rw [if_neg (by omega)]
          have after : (clearEntry md idx offset v).segments idx =
              (md.segments idx).removed offset v :=
            Metadata.setSegment_self ..
          obtain ⟨removed, blocks, rest⟩ := ih (offset + 1) (clearEntry md idx offset v)
            (by rw [after]; exact ok.removed found) (by omega)
          refine ⟨(offset, v) :: removed, by rw [blocks]; rfl, ⟨?_, ?_, ?_, ?_, rest.indexed,
            fun tight => rest.tight ?_, ?_, rest.perBlockNum, fun j other => ?_⟩⟩
          · have off := ok.sound.entries_delete found
            have := rest.entries
            rw [after] at this
            exact off.trans (this.cons _)
          · rw [List.map_cons, rest.keys, List.length_cons, List.range'_succ]
          · rw [List.length_cons]
            have := rest.length_le
            omega
          · intro short
            rw [List.length_cons] at short ⊢
            rw [← rest.stops (by omega)]
            congr 1
            omega
          · rw [after]
            exact tight.removed ok found
          · rw [rest.bits, after]
            rfl
          · rw [rest.segments j other]
            exact Metadata.setSegment_of_ne md _ other

theorem AllIndexed.cleared {md' : Metadata} (all : AllIndexed md) {offset n : Nat}
    {removed : List MixKv} (cleared : Cleared idx offset n md md' removed) : AllIndexed md' := by
  intro j
  rw [cleared.perBlockNum]
  by_cases same : j = idx
  · rw [same]
    exact cleared.indexed
  · rw [cleared.segments j same]
    exact all j

/-! ## Migration -/

theorem Indexed.drainable {P : Nat} {seg : Segment} (ok : Indexed P seg) : Drainable seg.hash where
  proper := fun kv entry => by
    have key := ok.key_lt kv entry
    have slot := (ok.slot_small entry).2
    simp only [NO_ENTRY] at *
    omega
  distinct := ok.keys
  lens := ok.sound.lens

variable {m m' : Machine}

/-- The emptied segment is in order, and none of its bits is set. -/
theorem Migrated.indexed (done : Migrated idx m m') {P : Nat} (ok : Indexed P (m.segment idx)) :
    Indexed P (m'.segment idx) := by
  have none_ := done.entries
  refine ⟨done.sound ok.sound.size, ?_, ?_, ?_, ?_, ?_, ?_, ?_, ?_, ok.small⟩
  · rw [none_]; exact List.nodup_nil
  · rw [none_]; exact List.nodup_nil
  · rw [none_]; exact fun _ member => by cases member
  · rw [none_]; exact fun _ member => by cases member
  · rw [none_]; exact fun _ member => by cases member
  · rw [done.used, ok.used, none_]
    exact Int.sub_self _
  · rw [done.bitmap, clear_nextBit]
    exact Nat.zero_le 1
  · rw [done.bitmap, clear_bits]
    exact ok.bits_le

theorem Migrated.tight (done : Migrated idx m m') {P : Nat} (ok : Indexed P (m.segment idx))
    (tight : Exact (m.segment idx)) : Exact (m'.segment idx) := by
  intro j set
  rw [done.bitmap] at set
  by_cases usable : j < (m.segment idx).bitmap.bits
  · rw [testBit_clear _ usable] at set
    cases set
  · rw [testBit_clear_of_le _ (by omega)] at set
    obtain ⟨kv, entry, rfl⟩ := List.mem_map.1 (tight j set)
    exact absurd (ok.slot_lt kv entry) usable

theorem AllIndexed.migrated (all : AllIndexed m.md) (done : Migrated idx m m') :
    AllIndexed m'.md := by
  intro j
  rw [done.perBlockNum]
  by_cases same : j = idx
  · rw [same]
    exact done.indexed (all idx)
  · rw [show m'.md.segments j = m.md.segments j from done.segments j same]
    exact all j

/-- After the migration the write gets slot 0 of the empty segment. -/
theorem redirectWriteAfterMigration_spec (done : Migrated idx m m')
    (ok : Indexed m.md.perBlockNum (m.segment idx)) (some_block : 0 < m.md.perBlockNum)
    {task : IoTask} (inRange : InRange task) :
    SmallWrite m'.md task idx (redirectWriteAfterMigration m'.md task idx) := by
  have ok' : Indexed m'.md.perBlockNum (m'.md.segments idx) := done.perBlockNum ▸ done.indexed ok
  have absent : (m'.md.segments idx).hash.find? task.offset = none := by
    rw [ok'.sound.find?_eq_none_iff ok'.keys]
    intro v member
    rw [show (m'.md.segments idx).hash.entries = [] from done.entries] at member
    cases member
  have room : (m'.md.segments idx).usedBlockNum ≠ m'.md.perBlockNum := by
    rw [ok'.used, show (m'.md.segments idx).hash.entries = [] from done.entries, done.perBlockNum]
    simp only [List.length_nil]
    omega
  unfold redirectWriteAfterMigration
  cases got : mixGetNextFreeBlock m'.md idx with
  | none => exact .spins absent room ((nextFreeBlock_none_iff ok' room).1 got)
  | some result =>
      obtain ⟨z, md'⟩ := result
      obtain ⟨v, first, rfl, rfl⟩ := nextFreeBlock_some ok' room got
      exact writeToNewSlot_marked ok' inRange absent room first

theorem Migrated.allocSafe (done : Migrated idx m m') : AllocSafe (m'.segment idx).bitmap idx :=
  Or.inl (by rw [done.bitmap, clear_nextBit])

end

end Mixdk
