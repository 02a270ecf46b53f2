/-
# Index.Accounting -- hash, bitmap and counter agree

The four views of a segment's free slots (`Balanced`): the entries of the hash, the
set bits of the bitmap, the counter, and what the allocator finds.  They agree in
every state of every history whose small writes meet `SlotGuard` (`accounting`).

The guard is exact: a write that does not meet it leaves the segment unbalanced
(`unguarded_unbalanced`), either by losing a bit, or by filling a bitmap that is
smaller than the segment because the segment's size in bytes did not fit a
`uint32_t`.
-/
import Mixdk.Index.SmallWrite

namespace Mixdk

open Transition

set_option autoImplicit false

/-- The views of a segment's free slots agree, and the allocator finds one unless there is none. -/
structure Balanced (md : Metadata) (idx : SegIdx) : Prop where
  keys : ((md.segments idx).hash.entries.map Prod.fst).Nodup
  slots : ((md.segments idx).hash.entries.map Prod.snd).Nodup
  slot_lt : ∀ kv ∈ (md.segments idx).hash.entries, kv.2 < md.perBlockNum
  bits : ∀ j, mixBitmapTestBit (md.segments idx).bitmap j = true ↔
    j ∈ (md.segments idx).hash.entries.map Prod.snd
  used : (md.segments idx).usedBlockNum = (md.segments idx).hash.entries.length
  returns : ∃ z md', mixGetNextFreeBlock md idx = some (z, md') ∧
    (z = -1 ↔ (md.segments idx).hash.entries.length = md.perBlockNum)

/-- The bitmap has a bit to spare for one more slot, or one for every slot of the segment. -/
def BitToSpare (md : Metadata) (idx : SegIdx) : Prop :=
  (md.segments idx).bitmap.bits = md.perBlockNum ∨
    (md.segments idx).usedBlockNum + 1 < (md.segments idx).bitmap.bits

/-- A small write finds its block, migrates, or gets a safe slot. -/
def SlotGuard (m : Machine) : Operation → Prop
  | .task idx _ task _ => opCode task = MIX_WRITE → task.len ≤ WRITE_THRESHOLD →
      mixBufferBlockTest m.md task.offset idx ≠ -1 ∨
        (m.segment idx).usedBlockNum = m.md.perBlockNum ∨
        (AllocSafe (m.segment idx).bitmap idx ∧ BitToSpare m.md idx)
  | _ => True

instance (md : Metadata) (idx : SegIdx) : Decidable (BitToSpare md idx) := by
  unfold BitToSpare
  infer_instance

instance (m : Machine) : DecidablePred (SlotGuard m)
  | .task .. => inferInstanceAs (Decidable (_ → _ → _))
  | .migrate .. | .segmentsClear => .isTrue trivial

/-- What guarded histories keep of a segment. -/
structure Steady (P : Nat) (seg : Segment) : Prop where
  ok : Indexed P seg
  tight : Exact seg
  some_bit : 0 < seg.bitmap.bits
  room : seg.bitmap.bits = P ∨ seg.usedBlockNum < seg.bitmap.bits

section

variable {P : Nat} {seg : Segment} {md md' : Metadata} {idx : SegIdx} {m m' : Machine}
  {task : IoTask} {sched : List (Fin MIGRATE_THREAD_NUM)}

theorem Steady.bits_iff (steady : Steady P seg) (j : Nat) :
    mixBitmapTestBit seg.bitmap j = true ↔ j ∈ seg.hash.entries.map Prod.snd := by
  refine ⟨steady.tight j, fun member => ?_⟩
  obtain ⟨kv, entry, rfl⟩ := List.mem_map.1 member
  exact steady.ok.slot_set kv entry

/-- With as many entries as bits, every bit is set. -/
theorem Indexed.all_set (ok : Indexed P seg)
    (every : seg.hash.entries.length = seg.bitmap.bits) :
    ∀ i < seg.bitmap.bits, mixBitmapTestBit seg.bitmap i = true := by
  have inside : seg.hash.entries.map Prod.snd ⊆ List.range seg.bitmap.bits := by
    intro v member
    obtain ⟨kv, entry, rfl⟩ := List.mem_map.1 member
    exact List.mem_range.2 (ok.slot_lt kv entry)
  have perm := (List.subperm_of_subset ok.slots inside).perm_of_length_le
    (by rw [List.length_range, List.length_map, every])
  intro i below
  obtain ⟨kv, entry, rfl⟩ := List.mem_map.1 (perm.mem_iff.2 (List.mem_range.2 below))
  exact ok.slot_set kv entry

/-- A segment with fewer entries than bits has a clear bit. -/
theorem Exact.not_all_set (tight : Exact seg)
    (fewer : seg.hash.entries.length < seg.bitmap.bits) :
    ¬ ∀ i < seg.bitmap.bits, mixBitmapTestBit seg.bitmap i = true := by
  intro allSet
  have inside : List.range seg.bitmap.bits ⊆ seg.hash.entries.map Prod.snd :=
    fun i member => tight i (allSet i (List.mem_range.1 member))
  have := (List.subperm_of_subset List.nodup_range inside).length_le
  rw [List.length_map, List.length_range] at this
  omega

theorem Steady.balanced (steady : Steady md.perBlockNum (md.segments idx)) : Balanced md idx where
  keys := steady.ok.keys
  slots := steady.ok.slots
  slot_lt := fun kv entry => (steady.ok.slot_small entry).1
  bits := steady.bits_iff
  used := steady.ok.used
  returns := by
    have used := steady.ok.used
    by_cases full : (md.segments idx).usedBlockNum = md.perBlockNum
    · exact ⟨-1, md, by rw [mixGetNextFreeBlock]; simp only [full, if_true],
        iff_of_true rfl (by omega)⟩
    · have fewer : (md.segments idx).hash.entries.length < (md.segments idx).bitmap.bits := by
        have := steady.ok.length_le
        rcases steady.room with all | spare <;> omega
      cases got : mixGetNextFreeBlock md idx with
      | none =>
          exact absurd ((nextFreeBlock_none_iff steady.ok full).1 got)
            (steady.tight.not_all_set fewer)
      | some result =>
          obtain ⟨z, md'⟩ := result
          obtain ⟨v, -, rfl, -⟩ := nextFreeBlock_some steady.ok full got
          exact ⟨v, md', rfl, iff_of_false (by omega) (by omega)⟩

/-! ## Steps -/

/-- A segment the operation does not belong to, or that it leaves as it is. -/
def AllSteady (md : Metadata) : Prop := ∀ idx, Steady md.perBlockNum (md.segments idx)

theorem AllSteady.allIndexed (all : AllSteady md) : AllIndexed md := fun idx => (all idx).ok

theorem AllSteady.of_segment (all : AllSteady md) (perBlockNum : md'.perBlockNum = md.perBlockNum)
    (segments : ∀ j ≠ idx, md'.segments j = md.segments j)
    (here : Steady md.perBlockNum (md'.segments idx)) : AllSteady md' := by
  intro j
  rw [perBlockNum]
  by_cases same : j = idx
  · rw [same]
    exact here
  · rw [segments j same]
    exact all j

theorem AllSteady.setSegment (all : AllSteady md) (here : Steady md.perBlockNum seg) :
    AllSteady (md.setSegment idx seg) :=
  all.of_segment rfl (fun _ other => Metadata.setSegment_of_ne md seg other)
    (by rw [Metadata.setSegment_self]; exact here)

/-- A small write with a safe slot. -/
theorem SmallWrite.allSteady {actions : List Action} {ret : Nat} (all : AllSteady md)
    (inRange : InRange task) (outcome : SmallWrite md task idx (.done md' actions ret))
    (guarded : (md.segments idx).hash.find? task.offset ≠ none ∨
      (AllocSafe (md.segments idx).bitmap idx ∧ BitToSpare md idx)) : AllSteady md' := by
  have key : task.offset < NO_ENTRY := inRange.key
  cases outcome with
  | overwrite => exact all
  | enter absent room first safe =>
      obtain ⟨-, spare⟩ := guarded.resolve_left fun found => found absent
      exact all.setSegment ⟨(all idx).ok.entered absent key first,
        (all idx).tight.entered (all idx).ok first safe, (all idx).some_bit, spare⟩
  | leak absent room first notSafe =>
      exact absurd (guarded.resolve_left fun found => found absent).1 notSafe

theorem AllSteady.migrated (all : AllSteady m.md) (done : Migrated idx m m') : AllSteady m'.md := by
  refine all.of_segment done.perBlockNum done.segments
    ⟨done.indexed (all idx).ok, done.tight (all idx).ok (all idx).tight, ?_, Or.inr ?_⟩
  · rw [show (m'.md.segments idx).bitmap = _ from done.bitmap, clear_bits]
    exact (all idx).some_bit
  · rw [show (m'.md.segments idx).bitmap = _ from done.bitmap, clear_bits,
      show (m'.md.segments idx).usedBlockNum = _ from done.used,
      show (m.segment idx).usedBlockNum = _ from (all idx).ok.used]
    have := (all idx).some_bit
    simp only [Machine.segment, sub_self]
    omega

/-- A migrated segment has a bit to spare: a bitmap has eight bits or none. -/
theorem Migrated.bitToSpare (done : Migrated idx m m') (all : AllSteady m.md) :
    BitToSpare m'.md idx := by
  have some_bit := (all idx).some_bit
  have used := (all idx).ok.used
  refine Or.inr ?_
  rw [show (m'.md.segments idx).bitmap = _ from done.bitmap, clear_bits,
    show (m'.md.segments idx).usedBlockNum = _ from done.used]
  simp only [Machine.segment, Bitmap.bits] at *
  omega

theorem Cleared.allSteady {offset n : Nat} {removed : List MixKv} (all : AllSteady md)
    (cleared : Cleared idx offset n md md' removed) : AllSteady md' := by
  refine all.of_segment cleared.perBlockNum cleared.segments
    ⟨cleared.indexed, cleared.tight (all idx).tight, cleared.bits ▸ (all idx).some_bit, ?_⟩
  have fewer := cleared.entries.length_eq
  rw [List.length_append] at fewer
  rw [cleared.bits, cleared.indexed.used]
  have used := (all idx).ok.used
  exact (all idx).room.imp id fun room => by omega

theorem TaskEffect.allSteady (mem : Mem) (all : AllSteady m.md) (inRange : InRange task)
    (guarded : SlotGuard m (.task idx mem task sched))
    (effect : TaskEffect idx task sched m m') : AllSteady m'.md := by
  have key : u32 task.offset = task.offset := u32_key inRange.key
  cases effect with
  | other _ md => rw [md]; exact all
  | large _ _ cleared _ => exact cleared.allSteady all
  | migrating _ _ _ ran outcome _ =>
      have done := Mixdk.migrated (all idx).ok.drainable ran
      exact outcome.allSteady (all.migrated done) inRange
        (Or.inr ⟨done.allocSafe, done.bitToSpare all⟩)
  | small op len outcome _ =>
      by_cases found : (m.md.segments idx).hash.find? task.offset = none
      · refine outcome.allSteady all inRange (Or.inr ?_)
        rcases guarded op len with known | full | slot
        · rw [Ne, (all idx).ok.test_eq_neg_one_iff, key] at known
          exact absurd found known
        · exact absurd full (outcome.room found)
        · exact slot
      · exact outcome.allSteady all inRange (Or.inl found)

theorem AllSteady.operate (all : AllSteady m.md) (some_block : 0 < m.md.perBlockNum)
    {op : Operation} (guarded : SlotGuard m op) (stepped : m.operate op = some m') :
    AllSteady m'.md ∧ 0 < m'.md.perBlockNum := by
  have running := Running.operate some_block ⟨all.allIndexed, rfl⟩ stepped
  refine ⟨?_, running.perBlockNum.symm ▸ some_block⟩
  cases op with
  | task idx mem task sched =>
      simp only [Machine.operate] at stepped
      split at stepped
      · rename_i inRange
        have effect := runTask_effect (m := { m with mem := mem }) all.allIndexed inRange some_block
          stepped
        exact TaskEffect.allSteady (m := { m with mem := mem }) mem all inRange guarded effect
      · cases stepped
  | migrate idx sched => exact all.migrated (Mixdk.migrated (all idx).ok.drainable stepped)
  | segmentsClear => cases stepped; exact all

/-! ## Histories -/

/-- The bits of a fresh bitmap: one for each slot, as long as the segment is below 4 GiB. -/
theorem mixMetadataInit_bits {blockNum : Nat} (eight : 8 ∣ blockNum / SEGMENT_NUM)
    (small : blockNum / SEGMENT_NUM < 2 ^ 20) (idx : SegIdx) :
    ((mixMetadataInit blockNum).segments idx).bitmap.bits = blockNum / SEGMENT_NUM := by
  show (mixFreeSegmentInit (u32 (BLOCK_SIZE * (blockNum / SEGMENT_NUM)))).bitmap.bits = _
  rw [freeSegmentInit_bits]
  simp only [u32, BLOCK_SIZE, SEGMENT_NUM] at *
  omega

/-- **In every guarded history, every segment is balanced.** -/
theorem accounting {blockNum : Nat} (word : blockNum < 2 ^ 32)
    (some_block : 0 < blockNum / SEGMENT_NUM) {start : Machine}
    (fresh : start.md = mixMetadataInit blockNum)
    (some_bit : ∀ idx, 0 < ((mixMetadataInit blockNum).segments idx).bitmap.bits)
    {ops : List Operation} (run : Run Machine.operate SlotGuard start ops m) (idx : SegIdx) :
    Balanced m.md idx := by
  have begin_ : AllSteady start.md ∧ 0 < start.md.perBlockNum := by
    rw [fresh]
    exact ⟨fun j => ⟨mixMetadataInit_indexed word j, mixMetadataInit_exact blockNum j, some_bit j,
      Or.inr (by have := some_bit j; exact Int.natCast_pos.2 this)⟩, some_block⟩
  have kept := run.invariant (I := fun m => AllSteady m.md ∧ 0 < m.md.perBlockNum)
    (fun _ _ _ inv guarded stepped => inv.1.operate inv.2 guarded stepped) begin_
  exact (kept.1 idx).balanced

/-- A safe write that takes the last bit of a bitmap smaller than its segment: the next search
does not end. -/
theorem filled_spins (all : AllSteady md) (inRange : InRange task) {v : Nat}
    (absent : (md.segments idx).hash.find? task.offset = none)
    (first : FirstZero (md.segments idx).bitmap v) (last : ¬ BitToSpare md idx) :
    mixGetNextFreeBlock (md.setSegment idx ((md.segments idx).entered idx task.offset v)) idx =
      none := by
  simp only [BitToSpare, not_or] at last
  have room := (all idx).room.resolve_left last.1
  have key : task.offset < NO_ENTRY := inRange.key
  have ok : Indexed md.perBlockNum ((md.segments idx).entered idx task.offset v) :=
    (all idx).ok.entered absent key first
  have used : ((md.segments idx).entered idx task.offset v).usedBlockNum =
      (md.segments idx).usedBlockNum + 1 := rfl
  have bits : ((md.segments idx).entered idx task.offset v).bitmap.bits =
      (md.segments idx).bitmap.bits := rfl
  have every : ((md.segments idx).entered idx task.offset v).hash.entries.length =
      ((md.segments idx).entered idx task.offset v).bitmap.bits := by
    have := ok.used
    omega
  rw [nextFreeBlock_none_iff]
  · rw [Metadata.setSegment_self]
    exact ok.all_set every
  · rw [Metadata.setSegment_self]
    exact ok
  · rw [Metadata.setSegment_self, Metadata.setSegment_perBlockNum]
    omega

/-- The guard is exact: without it the next state is not balanced. -/
theorem unguarded_unbalanced (all : AllSteady m.md) (some_block : 0 < m.md.perBlockNum)
    {op : Operation} (unguarded : ¬ SlotGuard m op) (stepped : m.operate op = some m') :
    ∃ idx, ¬ Balanced m'.md idx := by
  cases op with
  | migrate => exact absurd trivial unguarded
  | segmentsClear => exact absurd trivial unguarded
  | task idx mem task sched =>
      simp only [Machine.operate] at stepped
      split at stepped
      · rename_i inRange
        have key : u32 task.offset = task.offset := u32_key inRange.key
        simp only [SlotGuard, not_forall, not_or, not_and, not_not,
          (all idx).ok.test_eq_neg_one_iff, key] at unguarded
        obtain ⟨op, len, absent, room, slot⟩ := unguarded
        refine ⟨idx, fun balanced => ?_⟩
        have effect := runTask_effect (m := { m with mem := mem }) all.allIndexed inRange some_block
          stepped
        cases effect with
        | other other => exact other op
        | large _ large => exact absurd len (by omega)
        | migrating _ _ full =>
            cases full with
            | full _ used => exact room used
        | @small _ _ v outcome _ =>
            rcases outcome.done_cases with
              ⟨found, -⟩ | ⟨-, -, first, ⟨safe, md'⟩ | ⟨-, md'⟩⟩
            · rw [show _ = _ from absent] at found
              cases found
            · obtain ⟨z, md'', got, -⟩ := balanced.returns
              rw [md', filled_spins all inRange absent first (slot safe)] at got
              cases got
            · -- the slot's bit is set, and no entry has the slot
              have set := balanced.bits v
              rw [md', Metadata.setSegment_self] at set
              refine (all idx).ok.unused first.clear (set.1 ?_)
              rw [Segment.leaked, testBit_allocBitmap]
              simp
      · cases stepped

end

/-! ## The unbalanced state -/

/-- After the lost write of block 100 a bit of segment 0 is set for a slot no block has. -/
theorem fillAndFree_unbalanced : ∃ m, exec Machine.operate smallBuffer
    (fillAndFree 0 ++ [.task 0 (fun _ => 0) (writeTask 100 1) []]) = some m ∧ ¬ Balanced m.md 0 := by
  have run : (exec Machine.operate smallBuffer
      (fillAndFree 0 ++ [.task 0 (fun _ => 0) (writeTask 100 1) []])).map (fun m =>
        mixBitmapTestBit (m.md.segments 0).bitmap 1 &&
          !((m.md.segments 0).hash.entries.map Prod.snd).contains 1) = some true := by
    decide +kernel
  obtain ⟨m, ran, off⟩ := Option.map_eq_some_iff.1 run
  simp only [Bool.and_eq_true, Bool.not_eq_true', List.contains_eq_mem, decide_eq_false_iff_not] at off
  exact ⟨m, ran, fun balanced => off.2 ((balanced.bits 1).1 off.1)⟩

/-- Writes into a fresh buffer and a large one that clears one of them leave it balanced. -/
theorem severalWrites_balanced : ∃ m, Run Machine.operate SlotGuard smallBuffer (severalWrites 0) m ∧
    Balanced m.md 0 := by
  have returns : (exec (fun m op => if decide (SlotGuard m op) then m.operate op else none)
      smallBuffer (severalWrites 0)).isSome = true := by
    decide +kernel
  obtain ⟨m, ran⟩ := Option.isSome_iff_exists.1 returns
  have run := Run.of_checked (fun _ _ => of_decide_eq_true) ran
  exact ⟨m, run, accounting (show 32 < 2 ^ 32 by decide) (by decide) rfl
    (fun idx => by rw [mixMetadataInit_bits (by decide) (by decide)]; decide) run 0⟩

end Mixdk
