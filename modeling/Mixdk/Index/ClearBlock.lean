/-
# Index.ClearBlock -- a large write and the blocks it makes stale

`mix_clear_block` goes over the blocks of a large write to take them out of the buffer.  At
the first block the table does not have it returns, where it should go on with the next one.
So the blocks it takes out are those of a prefix of the range (`clearBlockLoop_taken`), and
the whole range is out afterwards exactly when the buffered blocks are a prefix of it
(`clearBlock_invalidates_iff`).
-/
import Mathlib.Data.Finset.Card
import Mixdk.Hash.Stacks
import Mixdk.Index.Restart

namespace Mixdk

set_option autoImplicit false

/-- The slots below `P` whose bit is set. -/
def setBits (P : Nat) (b : Bitmap) : Finset Nat :=
  (Finset.range P).filter fun v => mixBitmapTestBit b v = true

/-- The table, the bitmap and the counter of a segment with `P` slots agree. -/
structure Agrees (P : Nat) (seg : Segment) : Prop where
  /-- No key has a second node. -/
  unique : ∀ k, (seg.hash.stack k).length ≤ 1
  distinct : ∀ k k' v, seg.hash.find? k = some v → seg.hash.find? k' = some v → k = k'
  slot_lt : ∀ k v, seg.hash.find? k = some v → v < P
  bit_iff : ∀ v < P, mixBitmapTestBit seg.bitmap v = true ↔ ∃ k, seg.hash.find? k = some v
  used : seg.usedBlockNum = (setBits P seg.bitmap).card
  /-- Slots are `int`s. -/
  small : P ≤ 2 ^ 31

/-- Block `k` has an entry in the segment. -/
def Buffered (md : Metadata) (idx : SegIdx) (k : Nat) : Prop := mixBufferBlockTest md k idx ≠ -1

instance (md : Metadata) (idx : SegIdx) (k : Nat) : Decidable (Buffered md idx k) :=
  inferInstanceAs (Decidable (_ ≠ _))

/-- The index and the records after `mix_clear_block`. -/
def clearedBlocks (n : NvmBuffer) (md : Metadata) (task : IoTask) (idx : SegIdx) :
    Metadata × NvmBuffer :=
  let cleared := mixClearBlock md task idx
  (cleared.1, cleared.2.foldl mixBufferClear n)

/-- `mix_clear_block` has taken out all blocks of the task and nothing else. -/
structure Invalidated (n : NvmBuffer) (md : Metadata) (task : IoTask) (idx : SegIdx)
    (md' : Metadata) (n' : NvmBuffer) : Prop where
  gone : ∀ i < task.len, ¬ Buffered md' idx (task.offset + i)
  freed : ∀ i < task.len, ∀ v, (md.segments idx).hash.find? (task.offset + i) = some v →
    mixBitmapTestBit (md'.segments idx).bitmap v = false ∧
      (n'.metas (md.bufferBlock idx v)).status = 0
  used : (md'.segments idx).usedBlockNum = (md.segments idx).usedBlockNum -
    ((Finset.range task.len).filter fun i => Buffered md idx (task.offset + i)).card
  kept : ∀ k, ¬ (task.offset ≤ k ∧ k < task.offset + task.len) →
    (md'.segments idx).hash.find? k = (md.segments idx).hash.find? k ∧
      ∀ v, (md.segments idx).hash.find? k = some v →
        mixBitmapTestBit (md'.segments idx).bitmap v = true ∧
          n'.metas (md.bufferBlock idx v) = n.metas (md.bufferBlock idx v)

theorem find?_delete (h : Hash) (key k : Nat) :
    (mixHashDelete h key).find? k = if k = key then (h.stack k).tail.head? else h.find? k := by
  rw [Hash.find?_eq_head?, Hash.stack_delete, Hash.find?_eq_head?]
  split <;> rfl

namespace Agrees

variable {P : Nat} {seg : Segment}

/-- A found value comes back unchanged through the C integers it passes. -/
theorem value (agrees : Agrees P seg) {k v : Nat} (found : seg.hash.find? k = some v) :
    mixHashGet seg.hash k = v ∧ ofInt32 (v : Int) % P = v := by
  have below := agrees.slot_lt k v found
  have small := agrees.small
  rw [mixHashGet_eq, found, ofInt32_of_lt (by omega), Nat.mod_eq_of_lt below]
  exact ⟨toInt32_of_lt (by omega), rfl⟩

/-- `mix_buffer_block_test` finds what the table has. -/
theorem buffered_iff {md : Metadata} {idx : SegIdx}
    (agrees : Agrees md.perBlockNum (md.segments idx)) {k : Nat} (word : k < 2 ^ 32) :
    Buffered md idx k ↔ (md.segments idx).hash.find? k ≠ none := by
  unfold Buffered
  cases found : (md.segments idx).hash.find? k with
  | none => simp [mixBufferBlockTest, mixHashGet_eq, u32_of_lt word, found]
  | some v =>
      obtain ⟨get, bit⟩ := agrees.value found
      have set := (agrees.bit_iff v (agrees.slot_lt k v found)).2 ⟨k, found⟩
      have nonneg : ¬ (v : Int) = -1 := by omega
      simp [mixBufferBlockTest, u32_of_lt word, get, bit, set, nonneg]

/-- Without its entry and its bit, and counted down, the segment still agrees. -/
theorem remove (agrees : Agrees P seg) {key v : Nat} (found : seg.hash.find? key = some v) :
    Agrees P
        { hash := mixHashDelete seg.hash key, bitmap := (mixBitmapClearBit seg.bitmap v).2,
          usedBlockNum := seg.usedBlockNum - 1 } ∧
      ∀ k, (mixHashDelete seg.hash key).find? k = if k = key then none else seg.hash.find? k := by
  have find? : ∀ k, (mixHashDelete seg.hash key).find? k =
      if k = key then none else seg.hash.find? k := by
    intro k
    have short := agrees.unique k
    rw [find?_delete, List.head?_eq_none_iff.2 (List.length_eq_zero_iff.1 _)]
    rw [List.length_tail]
    omega
  have sub : ∀ k w, (mixHashDelete seg.hash key).find? k = some w →
      k ≠ key ∧ seg.hash.find? k = some w := by
    intro k w still
    rw [find?] at still
    split at still
    next => cases still
    next other => exact ⟨other, still⟩
  refine ⟨⟨fun k => ?_, fun k k' w one two => ?_, fun k w still => ?_, fun w below => ?_, ?_,
    agrees.small⟩, find?⟩
  · have short := agrees.unique k
    rw [Hash.stack_delete]
    split
    next => rw [List.length_tail]; omega
    next => exact short
  · exact agrees.distinct k k' w (sub k w one).2 (sub k' w two).2
  · exact agrees.slot_lt k w (sub k w still).2
  · rw [testBit_clearBit, Bool.and_eq_true, decide_eq_true_eq, agrees.bit_iff w below]
    constructor
    · rintro ⟨other, k, has⟩
      refine ⟨k, ?_⟩
      rw [find?, if_neg, has]
      rintro rfl
      rw [found, Option.some.injEq] at has
      exact other has.symm
    · rintro ⟨k, still⟩
      obtain ⟨other, has⟩ := sub k w still
      refine ⟨?_, k, has⟩
      rintro rfl
      exact other (agrees.distinct k key w has found)
  · have below := agrees.slot_lt key v found
    have member : v ∈ setBits P seg.bitmap :=
      Finset.mem_filter.2 ⟨Finset.mem_range.2 below, (agrees.bit_iff v below).2 ⟨key, found⟩⟩
    have erased : setBits P (mixBitmapClearBit seg.bitmap v).2 = (setBits P seg.bitmap).erase v := by
      ext w
      simp only [setBits, Finset.mem_filter, Finset.mem_erase, testBit_clearBit, Bool.and_eq_true,
        decide_eq_true_eq]
      tauto
    have some_ := Finset.card_pos.2 ⟨v, member⟩
    simp only [erased, Finset.card_erase_of_mem member, agrees.used]
    omega

end Agrees

section

variable {md md' : Metadata} {idx : SegIdx} {offset n m : Nat}

/-- The `m` blocks from `offset` on, all of them buffered, have been taken out. -/
structure Taken (idx : SegIdx) (offset m : Nat) (md md' : Metadata) : Prop where
  agrees : Agrees md.perBlockNum (md'.segments idx)
  perBlockNum : md'.perBlockNum = md.perBlockNum
  present : ∀ k, offset ≤ k → k < offset + m → (md.segments idx).hash.find? k ≠ none
  find? : ∀ k, (md'.segments idx).hash.find? k =
    if offset ≤ k ∧ k < offset + m then none else (md.segments idx).hash.find? k
  used : (md'.segments idx).usedBlockNum = (md.segments idx).usedBlockNum - m

namespace Taken

variable {md₁ : Metadata} {a b : Nat}

theorem nothing (agrees : Agrees md.perBlockNum (md.segments idx)) : Taken idx offset 0 md md :=
  ⟨agrees, rfl, fun _ low high => by omega, fun k => by rw [if_neg (by omega)], by omega⟩

theorem entry (agrees : Agrees md.perBlockNum (md.segments idx)) {v : Nat}
    (found : (md.segments idx).hash.find? offset = some v) :
    Taken idx offset 1 md (clearEntry md idx offset v) := by
  obtain ⟨agrees', find?⟩ := agrees.remove found
  have after : (clearEntry md idx offset v).segments idx = _ := Metadata.setSegment_self ..
  refine ⟨by rw [after]; exact agrees', rfl, fun k low high => ?_, fun k => ?_, by rw [after]; rfl⟩
  · obtain rfl : k = offset := by omega
    rw [found]
    exact Option.some_ne_none v
  · have same : (offset ≤ k ∧ k < offset + 1) = (k = offset) := by
      rw [eq_iff_iff]
      omega
    rw [after, find?]
    simp only [same]

/-- Two stretches, one after the other. -/
theorem append (first : Taken idx offset a md md₁) (second : Taken idx (offset + a) b md₁ md') :
    Taken idx offset (a + b) md md' where
  agrees := first.perBlockNum ▸ second.agrees
  perBlockNum := second.perBlockNum.trans first.perBlockNum
  present := fun k low high => by
    by_cases early : k < offset + a
    · exact first.present k low early
    · have there := second.present k (by omega) (by omega)
      rwa [first.find?, if_neg (by omega)] at there
  find? := fun k => by
    rw [second.find?, first.find?]
    by_cases early : offset ≤ k ∧ k < offset + a
    · rw [if_pos early, if_pos (show offset ≤ k ∧ k < offset + (a + b) by omega), ite_self]
    · rw [if_neg early]
      have same : (offset + a ≤ k ∧ k < offset + a + b) = (offset ≤ k ∧ k < offset + (a + b)) := by
        rw [eq_iff_iff]
        omega
      simp only [same]
  used := by
    rw [second.used, first.used]
    omega

end Taken

/-- The loop takes out the blocks before the first one the table does not have. -/
theorem clearBlockLoop_taken (n : Nat) {offset : Nat} {md : Metadata}
    (agrees : Agrees md.perBlockNum (md.segments idx)) (inside : offset + n ≤ 2 ^ 32) :
    ∃ m ≤ n, Taken idx offset m md (clearBlockLoop idx n offset md).1 ∧
      (m < n → (md.segments idx).hash.find? (offset + m) = none) ∧
      ∀ b, b ∈ (clearBlockLoop idx n offset md).2 ↔ ∃ k v, (offset ≤ k ∧ k < offset + m) ∧
        (md.segments idx).hash.find? k = some v ∧ b = md.bufferBlock idx v := by
  induction n generalizing offset md with
  | zero =>
      refine ⟨0, Nat.le_refl 0, .nothing agrees, fun short => absurd short (Nat.lt_irrefl 0),
        fun b => ?_⟩
      simp only [clearBlockLoop, List.not_mem_nil, false_iff]
      rintro ⟨k, v, range, -⟩
      omega
  | succ n ih =>
      rw [clearBlockLoop, u32_of_lt (by omega : offset < 2 ^ 32)]
      cases found : (md.segments idx).hash.find? offset with
      | none =>
          have get : mixHashGet (md.segments idx).hash offset = -1 := by
            rw [mixHashGet_eq, found]
          simp only [get, if_true]
          refine ⟨0, Nat.zero_le _, .nothing agrees, fun _ => found, fun b => ?_⟩
          simp only [List.not_mem_nil, false_iff]
          rintro ⟨k, v, range, -⟩
          omega
      | some v =>
          obtain ⟨get, bit⟩ := agrees.value found
          simp only [get, bit]
          rw [if_neg (by omega)]
          have first := Taken.entry agrees found
          obtain ⟨m, within, rest, stops, blocks⟩ :=
            @ih (offset + 1) (clearEntry md idx offset v) first.agrees (by omega)
          refine ⟨m + 1, by omega, Nat.add_comm 1 m ▸ first.append rest, fun short => ?_, fun b => ?_⟩
          · have missing := stops (by omega)
            rwa [first.find?, if_neg (by omega), Nat.add_assoc, Nat.add_comm 1 m] at missing
          · rw [List.mem_cons, blocks]
            constructor
            · rintro (rfl | ⟨k, w, range, has, rfl⟩)
              · exact ⟨offset, v, by omega, found, rfl⟩
              · rw [first.find?, if_neg (by omega)] at has
                exact ⟨k, w, by omega, has, rfl⟩
            · rintro ⟨k, w, range, has, rfl⟩
              by_cases same : k = offset
              · rw [same, found, Option.some.injEq] at has
                exact .inl (by rw [has])
              · refine .inr ⟨k, w, by omega, ?_, rfl⟩
                rw [first.find?, if_neg (by omega), has]

/-- The records after the loop: the status is 0 in those of the `m` blocks. -/
theorem clearedMetas
    (distinct : ∀ k k' v, (md.segments idx).hash.find? k = some v →
      (md.segments idx).hash.find? k' = some v → k = k') {bs : List Nat}
    (blocks : ∀ b, b ∈ bs ↔ ∃ k v, (offset ≤ k ∧ k < offset + m) ∧
      (md.segments idx).hash.find? k = some v ∧ b = md.bufferBlock idx v)
    (n : NvmBuffer) {k v : Nat} (found : (md.segments idx).hash.find? k = some v) :
    (bs.foldl mixBufferClear n).metas (md.bufferBlock idx v) =
      if offset ≤ k ∧ k < offset + m then { n.metas (md.bufferBlock idx v) with status := 0 }
      else n.metas (md.bufferBlock idx v) := by
  have member : md.bufferBlock idx v ∈ bs ↔ offset ≤ k ∧ k < offset + m := by
    rw [blocks]
    constructor
    · rintro ⟨k', w, range, has, same⟩
      obtain rfl : v = w := Nat.add_left_cancel same
      rwa [distinct k k' v found has]
    · exact fun range => ⟨k, v, range, found, rfl⟩
  rw [clears_metas]
  simp only [member]

/-- The bits after the loop: those of the slots of the `m` blocks are clear. -/
theorem Taken.bit (taken : Taken idx offset m md md')
    (agrees : Agrees md.perBlockNum (md.segments idx)) {k v : Nat}
    (found : (md.segments idx).hash.find? k = some v) :
    mixBitmapTestBit (md'.segments idx).bitmap v = true ↔ ¬ (offset ≤ k ∧ k < offset + m) := by
  rw [taken.agrees.bit_iff v (agrees.slot_lt k v found)]
  constructor
  · rintro ⟨k', has⟩ range
    rw [taken.find?] at has
    split at has
    next => cases has
    next outside => exact outside (agrees.distinct k k' v found has ▸ range)
  · intro outside
    exact ⟨k, by rw [taken.find?, if_neg outside, found]⟩

/-- Where the blocks taken out are the buffered ones of the range, the range is invalidated. -/
theorem Taken.invalidated {task : IoTask} (taken : Taken idx task.offset m md md')
    (agrees : Agrees md.perBlockNum (md.segments idx)) (inside : task.offset + task.len ≤ 2 ^ 32)
    (within : m ≤ task.len) {bs : List Nat}
    (blocks : ∀ b, b ∈ bs ↔ ∃ k v, (task.offset ≤ k ∧ k < task.offset + m) ∧
      (md.segments idx).hash.find? k = some v ∧ b = md.bufferBlock idx v)
    (all : ∀ i < task.len, (md.segments idx).hash.find? (task.offset + i) ≠ none ↔ i < m)
    (n : NvmBuffer) : Invalidated n md task idx md' (bs.foldl mixBufferClear n) := by
  have agrees' : Agrees md'.perBlockNum (md'.segments idx) := taken.perBlockNum.symm ▸ taken.agrees
  refine ⟨fun i below there => ?_, fun i below v found => ?_, ?_, fun k outside => ?_⟩
  · have still := (agrees'.buffered_iff (by omega)).1 there
    rw [taken.find?] at still
    split at still
    next => exact still rfl
    next beyond =>
      have reached := (all i below).1 still
      exact beyond (by omega)
  · have reached : i < m := (all i below).1 (by rw [found]; exact Option.some_ne_none v)
    have range : task.offset ≤ task.offset + i ∧ task.offset + i < task.offset + m := by omega
    refine ⟨?_, ?_⟩
    · rw [← Bool.not_eq_true]
      exact fun set => (taken.bit agrees found).1 set range
    · rw [clearedMetas agrees.distinct blocks n found, if_pos range]
  · have same : ((Finset.range task.len).filter fun i => Buffered md idx (task.offset + i)) =
        Finset.range m := by
      ext i
      rw [Finset.mem_filter, Finset.mem_range, Finset.mem_range]
      refine ⟨fun there => ?_, fun reached => ?_⟩
      · exact (all i there.1).1 ((agrees.buffered_iff (by omega)).1 there.2)
      · have below : i < task.len := Nat.lt_of_lt_of_le reached within
        exact ⟨below, (agrees.buffered_iff (by omega)).2 ((all i below).2 reached)⟩
    rw [same, Finset.card_range]
    exact taken.used
  · have beyond : ¬ (task.offset ≤ k ∧ k < task.offset + m) := by omega
    refine ⟨by rw [taken.find?, if_neg beyond], fun v found =>
      ⟨(taken.bit agrees found).2 beyond, ?_⟩⟩
    rw [clearedMetas agrees.distinct blocks n found, if_neg beyond]

end

/-- **A large write invalidates its range exactly when the buffered blocks of the range come
before the others.** -/
theorem clearBlock_invalidates_iff (n : NvmBuffer) {md : Metadata} {task : IoTask} {idx : SegIdx}
    (agrees : Agrees md.perBlockNum (md.segments idx)) (inside : task.offset + task.len ≤ 2 ^ 32) :
    let cleared := clearedBlocks n md task idx
    Invalidated n md task idx cleared.1 cleared.2 ↔
      ∀ i j, i < j → j < task.len → Buffered md idx (task.offset + j) →
        Buffered md idx (task.offset + i) := by
  intro cleared
  obtain ⟨m, within, taken, stops, blocks⟩ :=
    clearBlockLoop_taken task.len agrees inside
  have test : ∀ i < task.len, Buffered md idx (task.offset + i) ↔
      (md.segments idx).hash.find? (task.offset + i) ≠ none :=
    fun i below => agrees.buffered_iff (by omega)
  constructor
  · intro done i j before below there
    by_contra missing
    -- The loop has returned at block `i` or before, so block `j` is still found.
    have stopped : m ≤ i := by
      by_contra reached
      exact missing ((test i (by omega)).2 (taken.present _ (by omega) (by omega)))
    have agrees' : Agrees cleared.1.perBlockNum (cleared.1.segments idx) :=
      taken.perBlockNum.symm ▸ taken.agrees
    refine done.gone j below ((agrees'.buffered_iff (by omega)).2 ?_)
    rw [show (cleared.1.segments idx).hash.find? (task.offset + j) = _ from taken.find? _,
      if_neg (by omega)]
    exact (test j below).1 there
  · intro first
    refine taken.invalidated agrees inside within blocks (fun i below => ?_) n
    refine ⟨fun there => ?_, fun reached => taken.present _ (by omega) (by omega)⟩
    by_contra beyond
    have missing := stops (by omega)
    by_cases here : i = m
    · exact there (here ▸ missing)
    · have before := first m i (by omega) below ((test i below).2 there)
      exact (test m (by omega)).1 before missing

/-! ## One buffered block -/

/-- Segment `idx` of a new index, with block `key` in slot 0. -/
def oneEntry (idx : SegIdx) (key : Nat) : Metadata :=
  (mixMetadataInit BUFFER_BLOCK_NUM).setSegment idx
    { hash := mixHashPut (mixHashInit 100) key 0
      bitmap := (mixBitmapSetBit (mixBitmapInit 1024) 0).2
      usedBlockNum := 1 }

theorem oneEntry_agrees (idx : SegIdx) (key : Nat) :
    Agrees (oneEntry idx key).perBlockNum ((oneEntry idx key).segments idx) := by
  have stack : ∀ k, (mixHashPut (mixHashInit 100) key 0).stack k = if k = key then [0] else [] :=
    fun k => Hash.stack_put (mixHashInit 100) key 0 k
  have found : ∀ k v, (mixHashPut (mixHashInit 100) key 0).find? k = some v ↔ k = key ∧ v = 0 := by
    intro k v
    rw [Hash.find?_eq_head?, stack]
    split
    next same => simp [same, eq_comm]
    next other => simp [other]
  have bits : setBits 1024 (mixBitmapSetBit (mixBitmapInit 1024) 0).2 = {0} := by
    ext v
    simp only [setBits, Finset.mem_filter, Finset.mem_range, testBit_setBit, testBit_init,
      Bool.or_false, decide_eq_true_eq, Finset.mem_singleton]
    omega
  have blocks : (oneEntry idx key).perBlockNum = 1024 := rfl
  rw [blocks, oneEntry, Metadata.setSegment_self]
  refine ⟨fun k => ?_, fun k k' v one two => ?_, fun k v has => ?_, fun v _ => ?_, ?_, by decide⟩
  · simp only [stack]
    split <;> simp
  · exact ((found k v).1 one).1.trans ((found k' v).1 two).1.symm
  · rw [((found k v).1 has).2]
    decide
  · simp only [testBit_setBit, testBit_init, Bool.or_false, decide_eq_true_eq, found]
    exact ⟨fun first => ⟨key, rfl, first⟩, fun ⟨_, _, first⟩ => first⟩
  · simp only [bits, Finset.card_singleton, Nat.cast_one]

/-- A write to blocks 8 and 9. -/
def writeTwo : IoTask :=
  { buf := 4096, len := 2, offset := 8, ret := 0, opcode := MIX_WRITE, type := 0, queueIdx := 0 }

/-- A buffer whose records name block `key`. -/
def recordsOf (key : Nat) : NvmBuffer :=
  { data := fun _ _ => 0
    metas := fun _ => { status := 1, timestamp := 0, offset := key, flags := 0 } }

theorem clearBlock_invalidates_iff_first :
    let n := recordsOf 8
    let md := oneEntry 0 8
    let cleared := clearedBlocks n md writeTwo 0
    Invalidated n md writeTwo 0 cleared.1 cleared.2 ↔
      ∀ i j, i < j → j < writeTwo.len → Buffered md 0 (writeTwo.offset + j) →
        Buffered md 0 (writeTwo.offset + i) :=
  clearBlock_invalidates_iff (recordsOf 8) (oneEntry_agrees 0 8) (by decide)

/-- Block 9 is buffered and block 8 is not: block 9 stays. -/
theorem clearBlock_leaves_second :
    let n := recordsOf 9
    let md := oneEntry 0 9
    let cleared := clearedBlocks n md writeTwo 0
    Agrees md.perBlockNum (md.segments 0) ∧ ¬ Invalidated n md writeTwo 0 cleared.1 cleared.2 := by
  refine ⟨oneEntry_agrees 0 9, fun done => done.gone 1 (by decide) ?_⟩
  decide +kernel

end Mixdk
