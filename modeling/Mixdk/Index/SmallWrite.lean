/-
# Index.SmallWrite -- when a small write is kept

After a small write its block should be found in a slot that holds the written data,
and every other buffered block where it was (`WriteKept`).  In every history this is
so for a write exactly when `SlotSafe` holds before it: the block is buffered already,
or the segment is full and is migrated, or the slot the search finds is one whose
derived bit `mix_write_redirect_blockmeta` can set (`smallWrite_kept_iff`).
-/
import Mixdk.Index.Operations

namespace Mixdk

open Transition

set_option autoImplicit false

/-- The index after block `offset` of segment `idx` got slot `v`. -/
structure Entered (idx : SegIdx) (offset v : Nat) (md md' : Metadata) : Prop where
  found : (md'.segments idx).hash.find? offset = some v
  kept : ∀ (j : SegIdx) (k w : Nat), j ≠ idx ∨ k ≠ offset →
    (md.segments j).hash.find? k = some w →
    (md'.segments j).hash.find? k = some w ∧ (j ≠ idx ∨ w ≠ v)

section

variable {md md' : Metadata} {idx : SegIdx} {task : IoTask} {v ret : Nat}

theorem Indexed.find?_entered {P : Nat} {seg : Segment} (ok : Indexed P seg) {k v : Nat}
    (absent : seg.hash.find? k = none) (key : k < NO_ENTRY) (first : FirstZero seg.bitmap v)
    {k' w : Nat} : (seg.entered idx k v).hash.find? k' = some w ↔
      (k' = k ∧ w = v) ∨ seg.hash.find? k' = some w := by
  have ok' : Indexed P (seg.entered idx k v) := ok.entered absent key first
  rw [ok'.find?_eq_some_iff, ok.find?_eq_some_iff,
    Segment.entered, (ok.sound.entries_put k v).mem_iff, List.mem_cons, Prod.mk.injEq]

/-- A slot holds one block. -/
theorem Indexed.slot_inj {P : Nat} {seg : Segment} (ok : Indexed P seg) {k k' v : Nat}
    (here : seg.hash.find? k = some v) (there : seg.hash.find? k' = some v) : k = k' := by
  have same := List.inj_on_of_nodup_map ok.slots (ok.find?_eq_some_iff.1 here)
    (ok.find?_eq_some_iff.1 there) rfl
  exact congrArg Prod.fst same

/-- A block that was found or safely allocated is entered, and nothing else is moved. -/
theorem SmallWrite.entered (all : AllIndexed md) (inRange : InRange task)
    (outcome : SmallWrite md task idx (.done md' (bufferWrite md task idx v) ret))
    (some_ : (md.segments idx).hash.find? task.offset ≠ none ∨
      AllocSafe (md.segments idx).bitmap idx) : Entered idx task.offset v md md' := by
  have key : task.offset < NO_ENTRY := inRange.key
  rcases outcome.done_cases with ⟨found, rfl⟩ | ⟨absent, -, first, ⟨-, rfl⟩ | ⟨notSafe, -⟩⟩
  · refine ⟨found, fun j k w apart there => ⟨there, ?_⟩⟩
    by_cases same : j = idx
    · subst same
      refine Or.inr fun e => apart.elim (fun ne => ne rfl) fun ne => ne ?_
      exact (all j).slot_inj there (e ▸ found)
    · exact Or.inl same
  · refine ⟨?_, fun j k w apart there => ?_⟩
    · rw [Metadata.setSegment_self]
      exact ((all idx).find?_entered absent key first).2 (Or.inl ⟨rfl, rfl⟩)
    · by_cases same : j = idx
      · subst same
        rw [Metadata.setSegment_self]
        refine ⟨((all j).find?_entered absent key first).2 (Or.inr there), Or.inr fun e => ?_⟩
        subst e
        exact (all j).unused first.clear
          (List.mem_map_of_mem (f := Prod.snd) ((all j).find?_eq_some_iff.1 there))
      · rw [Metadata.setSegment_of_ne md _ same]
        exact ⟨there, Or.inl same⟩
  · exact absurd some_ (by simp [absent, notSafe])

/-- A block whose slot was not entered is not found. -/
theorem SmallWrite.lost (outcome : SmallWrite md task idx (.done md' (bufferWrite md task idx v) ret))
    (absent : (md.segments idx).hash.find? task.offset = none)
    (notSafe : ¬ AllocSafe (md.segments idx).bitmap idx) :
    (md'.segments idx).hash.find? task.offset = none := by
  rcases outcome.done_cases with ⟨found, -⟩ | ⟨-, -, -, ⟨safe, -⟩ | ⟨-, rfl⟩⟩
  · rw [absent] at found
    cases found
  · exact absurd safe notSafe
  · rw [Metadata.setSegment_self]
    exact absent

/-- A write that got a slot for a new block found room. -/
theorem SmallWrite.room (outcome : SmallWrite md task idx (.done md' (bufferWrite md task idx v) ret))
    (absent : (md.segments idx).hash.find? task.offset = none) :
    (md.segments idx).usedBlockNum ≠ md.perBlockNum := by
  rcases outcome.done_cases with ⟨found, -⟩ | ⟨-, room, -⟩
  · rw [absent] at found
    cases found
  · exact room

end

/-! ## The contract of a small write -/

/-- A write of one block. -/
structure SingleWrite (task : IoTask) : Prop where
  op : opCode task = MIX_WRITE
  len : task.len = 1

/-- What a small write handled in `m`, with the callers' memory `mem`, owes in `m'`. -/
structure WriteKept (idx : SegIdx) (mem : Mem) (task : IoTask) (m m' : Machine) : Prop where
  /-- The block is found in a slot that holds the data and names the block. -/
  found : ∃ v < m.md.perBlockNum, mixBufferBlockTest m'.md task.offset idx = v ∧
    m'.nvm.data (m.md.bufferBlock idx v) = mem.load task.buf ∧
    (m'.nvm.metas (m.md.bufferBlock idx v)).valid = true ∧
    (m'.nvm.metas (m.md.bufferBlock idx v)).offset = task.offset
  /-- Without a migration every other buffered block is where it was. -/
  others : redirectWrite m.md task idx ≠ .full → ∀ (j : SegIdx) (k v : Nat), k < 2 ^ 32 →
    j ≠ idx ∨ k ≠ task.offset → mixBufferBlockTest m.md k j = v →
    mixBufferBlockTest m'.md k j = v ∧
      m'.nvm.data (m.md.bufferBlock j v) = m.nvm.data (m.md.bufferBlock j v)

/-- When a small write of block `offset` gets a slot it is found in. -/
def SlotSafe (md : Metadata) (idx : SegIdx) (offset : Nat) : Prop :=
  mixBufferBlockTest md offset idx ≠ -1 ∨
    (md.segments idx).usedBlockNum = md.perBlockNum ∨ AllocSafe (md.segments idx).bitmap idx

instance (md : Metadata) (idx : SegIdx) (offset : Nat) : Decidable (SlotSafe md idx offset) := by
  unfold SlotSafe
  infer_instance

section

variable {idx : SegIdx} {mem : Mem} {task : IoTask} {m m' between : Machine}
  {sched : List (Fin MIGRATE_THREAD_NUM)}

/-- The found half of the contract, for a block entered in slot `v` and written there. -/
theorem Entered.found_kept {n : NvmBuffer} {v : Nat} {md : Metadata} (inRange : InRange task)
    (ok : Indexed m'.md.perBlockNum (m'.md.segments idx)) (inside : v < m.md.perBlockNum)
    (entered : Entered idx task.offset v md m'.md)
    (nvm : m'.nvm = mixBufferWrite n (mem.load task.buf) task.offset (m.md.bufferBlock idx v)
      task.opcode) :
    ∃ v < m.md.perBlockNum, mixBufferBlockTest m'.md task.offset idx = v ∧
      m'.nvm.data (m.md.bufferBlock idx v) = mem.load task.buf ∧
      (m'.nvm.metas (m.md.bufferBlock idx v)).valid = true ∧
      (m'.nvm.metas (m.md.bufferBlock idx v)).offset = task.offset := by
  have key : u32 task.offset = task.offset := u32_key inRange.key
  refine ⟨v, inside, ?_, ?_, ?_, ?_⟩
  · rw [ok.bufferBlockTest, key, entered.found]
  · simp [nvm, mixBufferWrite]
  · simp [nvm, mixBufferWrite, BufferMeta.valid]
  · simp [nvm, mixBufferWrite]

/-- The other half, for a write that entered its block without a migration. -/
theorem Entered.others_kept {v : Nat} (all : AllIndexed m.md) (all' : AllIndexed m'.md)
    (inside : v < m.md.perBlockNum) (entered : Entered idx task.offset v m.md m'.md)
    (nvm : m'.nvm = mixBufferWrite m.nvm (mem.load task.buf) task.offset
      (m.md.bufferBlock idx v) task.opcode) (j : SegIdx) (k w : Nat) (word : k < 2 ^ 32)
    (apart : j ≠ idx ∨ k ≠ task.offset) (there : mixBufferBlockTest m.md k j = w) :
    mixBufferBlockTest m'.md k j = w ∧
      m'.nvm.data (m.md.bufferBlock j w) = m.nvm.data (m.md.bufferBlock j w) := by
  have key : u32 k = k := u32_of_lt word
  have found := ((all j).find?_eq_some_iff).2 ((all j).test_eq_iff.1 there)
  rw [key] at found
  obtain ⟨still, slots⟩ := entered.kept j k w apart found
  have below := ((all j).slot_small ((all j).find?_eq_some_iff.1 found)).1
  refine ⟨by rw [(all' j).bufferBlockTest, key, still], ?_⟩
  have blocks : m.md.bufferBlock j w ≠ m.md.bufferBlock idx v := fun same => by
    obtain ⟨sameSegment, sameSlot⟩ := bufferBlock_inj below inside same
    exact slots.elim (fun ne => ne sameSegment) fun ne => ne sameSlot
  simp [nvm, mixBufferWrite, Function.update_of_ne blocks]

/-- One step, from any state whose index is in order. -/
theorem TaskEffect.writeKept_iff (all : AllIndexed m.md) (inRange : InRange task)
    (single : SingleWrite task)
    (effect : TaskEffect idx task sched { m with mem := mem } m') :
    WriteKept idx mem task m m' ↔ SlotSafe m.md idx task.offset := by
  have key : u32 task.offset = task.offset := u32_key inRange.key
  have all' := TaskEffect.allIndexed (m := { m with mem := mem }) all inRange effect
  have known : mixBufferBlockTest m.md task.offset idx ≠ -1 ↔
      (m.md.segments idx).hash.find? task.offset ≠ none := by
    rw [Ne, (all idx).test_eq_neg_one_iff, key]
  cases effect with
  | other op => exact absurd single.op op
  | large _ len => exact absurd single.len (by simp only [WRITE_THRESHOLD] at len; omega)
  | @migrating _ _ full between ran v outcome nvm =>
      have used : (m.md.segments idx).usedBlockNum = m.md.perBlockNum := by
        cases full with
        | full _ used => exact used
      refine iff_of_true ?_ (Or.inr (Or.inl used))
      have done := migrated (m := { m with mem := mem }) (all idx).drainable ran
      have between_ok := AllIndexed.migrated (m := { m with mem := mem }) all done
      have entered := outcome.entered between_ok inRange (Or.inr done.allocSafe)
      have inside : v < m.md.perBlockNum := done.perBlockNum ▸ outcome.slot_lt between_ok
      refine ⟨entered.found_kept inRange (all'.1 idx) inside nvm, fun notFull => ?_⟩
      have small := redirectWrite_small (all idx) inRange (by rw [single.len]; decide)
      cases full with
      | full absent used =>
          generalize result_eq : redirectWrite m.md task idx = result at small notFull
          cases small with
          | overwrite found =>
              rw [show (m.md.segments idx).hash.find? task.offset = none from absent] at found
              cases found
          | full => exact absurd rfl notFull
          | spins _ room => exact absurd used room
          | enter _ room => exact absurd used room
          | leak _ room => exact absurd used room
  | @small _ _ v outcome nvm =>
      have inside : v < m.md.perBlockNum := outcome.slot_lt all
      by_cases some_ : (m.md.segments idx).hash.find? task.offset ≠ none ∨
          AllocSafe (m.md.segments idx).bitmap idx
      · have entered := outcome.entered all inRange some_
        refine iff_of_true ⟨entered.found_kept inRange (all'.1 idx) inside nvm,
          fun _ => entered.others_kept all all'.1 inside nvm⟩ ?_
        exact some_.elim (fun found => Or.inl (known.2 found)) fun safe => Or.inr (Or.inr safe)
      · rw [not_or, not_not] at some_
        refine iff_of_false (fun kept => ?_) fun safe => ?_
        · obtain ⟨w, -, found, -⟩ := kept.found
          rw [(all'.1 idx).bufferBlockTest, key, outcome.lost some_.1 some_.2] at found
          simp only at found
          omega
        · rcases safe with found | full | safe
          · exact known.1 found some_.1
          · exact outcome.room some_.1 full
          · exact some_.2 safe

/-- **In every history, a small write that returns is kept exactly when its slot is safe.** -/
theorem smallWrite_kept_iff {blockNum : Nat} (word : blockNum < 2 ^ 32)
    (some_block : 0 < blockNum / SEGMENT_NUM) {start : Machine}
    (fresh : start.md = mixMetadataInit blockNum) {ops : List Operation}
    (reached : exec Machine.operate start ops = some m) (single : SingleWrite task)
    (returned : m.operate (.task idx mem task sched) = some m') :
    WriteKept idx mem task m m' ↔ SlotSafe m.md idx task.offset := by
  obtain ⟨all, size⟩ := (Running.init word fresh).exec some_block reached
  simp only [Machine.operate] at returned
  split at returned
  · rename_i inRange
    have some_ : 0 < m.md.perBlockNum := size.symm ▸ some_block
    exact TaskEffect.writeKept_iff all inRange single
      (runTask_effect (m := { m with mem := mem }) all inRange some_ returned)
  · cases returned

end

/-! ## A lost write -/

/-- Fill a segment, so that the hint is past its first slot, and free slots 0 and 1. -/
def fillAndFree (idx : SegIdx) : List Operation :=
  (List.range 8).map (fun k => .task idx (fun _ => 0) (writeTask k 1) []) ++
    [.task idx (fun _ => 0) (writeTask 0 2) []]

/-- The write of block 100 then takes slot 1, and is not found. -/
theorem fillAndFree_lost : ∃ m m', exec Machine.operate smallBuffer (fillAndFree 0) = some m ∧
    m.operate (.task 0 (fun _ => 0) (writeTask 100 1) []) = some m' ∧
    ¬ WriteKept 0 (fun _ => 0) (writeTask 100 1) m m' := by
  have run : ((exec Machine.operate smallBuffer (fillAndFree 0)).bind fun m =>
      m.operate (.task 0 (fun _ => 0) (writeTask 100 1) [])).map
        (fun m => mixBufferBlockTest m.md 100 0) = some (-1) := by decide +kernel
  obtain ⟨m', second, missed⟩ := Option.map_eq_some_iff.1 run
  obtain ⟨m, first, last⟩ := Option.bind_eq_some_iff.1 second
  refine ⟨m, m', first, last, fun kept => ?_⟩
  obtain ⟨v, -, found, -⟩ := kept.found
  rw [show (writeTask 100 1).offset = 100 from rfl, missed] at found
  omega

/-- Three writes of one block, a large one that clears the second block, and the first block once
more. -/
def severalWrites (idx : SegIdx) : List Operation :=
  [(5, 1), (9, 1), (13, 1), (9, 2), (5, 1)].map fun (offset, len) =>
    .task idx (fun _ => 0) (writeTask offset len) []

/-- The next write takes the slot the large one has freed, and is kept. -/
theorem severalWrites_kept : ∃ m m', exec Machine.operate smallBuffer (severalWrites 0) = some m ∧
    m.operate (.task 0 (fun _ => 0) (writeTask 17 1) []) = some m' ∧
    WriteKept 0 (fun _ => 0) (writeTask 17 1) m m' := by
  have run : (exec Machine.operate smallBuffer (severalWrites 0)).map (fun m =>
      (decide (SlotSafe m.md 0 17),
        (m.operate (.task 0 (fun _ => 0) (writeTask 17 1) [])).isSome)) = some (true, true) := by
    decide +kernel
  obtain ⟨m, ran, there⟩ := Option.map_eq_some_iff.1 run
  obtain ⟨safe, returns⟩ := Prod.mk.inj there
  obtain ⟨m', returned⟩ := Option.isSome_iff_exists.1 returns
  exact ⟨m, m', ran, returned, (smallWrite_kept_iff (show 32 < 2 ^ 32 by decide) (by decide) rfl
    ran ⟨by decide, rfl⟩ returned).2 (of_decide_eq_true safe)⟩

end Mixdk
