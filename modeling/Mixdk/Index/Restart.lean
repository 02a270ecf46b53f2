/-
# Index.Restart -- clearing the records and starting again

`mix_rebuild` clears every buffer record before the workers scan the records to
rebuild their index, at start-up as in `mix_segments_clear`.  So a start on any NVM
image gives the index of an empty buffer (`mixInitScheduler_eq`), and a restart
keeps what was buffered exactly when nothing was (`restart_keeps_iff`).
-/
import Mixdk.Index.SmallWrite

namespace Mixdk

open Transition

set_option autoImplicit false

/-! ## Clearing -/

section

variable {md : Metadata} {n : NvmBuffer} {idx : SegIdx}

/-- Clearing some blocks sets the status of their records to 0 and does nothing else. -/
theorem clears_metas (blocks : List Nat) (n : NvmBuffer) (b : Nat) :
    (blocks.foldl mixBufferClear n).metas b =
      if b ∈ blocks then { n.metas b with status := 0 } else n.metas b := by
  induction blocks generalizing n with
  | nil => simp
  | cons c blocks ih =>
      rw [List.foldl_cons, ih]
      by_cases here : b = c
      · subst here
        simp [mixBufferClear]
      · simp [mixBufferClear, here]

/-- The buffer blocks of all segments. -/
def allBlocks (md : Metadata) : List Nat :=
  (List.finRange 4).flatMap fun idx : SegIdx =>
    (List.range md.perBlockNum).map (md.bufferBlock idx)

theorem clearSegments_eq (md : Metadata) (n : NvmBuffer) :
    clearSegments md n = (allBlocks md).foldl mixBufferClear n := by
  have each : ∀ (idxs : List SegIdx) (n : NvmBuffer),
      idxs.foldl (fun n idx => mixSegmentClear md n idx) n =
        (idxs.flatMap fun idx => (List.range md.perBlockNum).map (md.bufferBlock idx)).foldl
          mixBufferClear n := by
    intro idxs
    induction idxs with
    | nil => exact fun n => rfl
    | cons idx idxs ih =>
        intro n
        rw [List.foldl_cons, List.flatMap_cons, List.foldl_append, List.foldl_map, ih]
        rfl
  exact each _ n

theorem mem_allBlocks {b : Nat} :
    b ∈ allBlocks md ↔ ∃ idx : SegIdx, ∃ v < md.perBlockNum, md.bufferBlock idx v = b := by
  simp only [allBlocks, List.mem_flatMap, List.mem_map, List.mem_range]
  exact ⟨fun ⟨idx, _, v, below, same⟩ => ⟨idx, v, below, same⟩,
    fun ⟨idx, v, below, same⟩ => ⟨idx, List.mem_finRange idx, v, below, same⟩⟩

/-- No record of the buffer is valid after `mix_segment_clear` of all segments. -/
theorem clearSegments_invalid (md : Metadata) (n : NvmBuffer) (idx : SegIdx) {v : Nat}
    (inside : v < md.perBlockNum) :
    ((clearSegments md n).metas (md.bufferBlock idx v)).valid = false := by
  rw [clearSegments_eq, clears_metas, if_pos (mem_allBlocks.2 ⟨idx, v, inside, rfl⟩)]
  simp [BufferMeta.valid]

/-! ## Rebuilding -/

/-- Where no record is valid, there is nothing to rebuild. -/
theorem bufferRebuild_invalid
    (invalid : ∀ v < md.perBlockNum, (n.metas (md.bufferBlock idx v)).valid = false) :
    mixBufferRebuild md n idx = md := by
  have scan : ∀ offs : List Nat, (∀ v ∈ offs, v < md.perBlockNum) →
      offs.foldl (rebuildSlot n idx) md = md := by
    intro offs
    induction offs with
    | nil => exact fun _ => rfl
    | cons v offs ih =>
        intro inside
        have here := invalid v (inside v List.mem_cons_self)
        rw [List.foldl_cons, show rebuildSlot n idx md v = md by
          simp only [rebuildSlot, mixBufferGetMeta, here]; rfl]
        exact ih fun w member => inside w (List.mem_cons_of_mem _ member)
  exact scan _ fun v member => List.mem_range.1 member

theorem bufferRebuilds_cleared (md : Metadata) (n : NvmBuffer) (idxs : List SegIdx) :
    idxs.foldl (fun md' idx => mixBufferRebuild md' (clearSegments md n) idx) md = md := by
  induction idxs with
  | nil => rfl
  | cons idx idxs ih =>
      rw [List.foldl_cons, bufferRebuild_invalid fun v inside => clearSegments_invalid md n idx inside]
      exact ih

theorem mixMetadataInit_entries (blockNum : Nat) (idx : SegIdx) :
    ((mixMetadataInit blockNum).segments idx).hash.entries = [] :=
  entries_init 100

/-- A start on any image: an empty index, and all records cleared. -/
theorem mixInitScheduler_eq (image : NvmBuffer) : mixInitScheduler image =
    (mixMetadataInit BUFFER_BLOCK_NUM, clearSegments (mixMetadataInit BUFFER_BLOCK_NUM) image) :=
  congrArg (·, clearSegments (mixMetadataInit BUFFER_BLOCK_NUM) image)
    (bufferRebuilds_cleared _ image _)

end

/-! ## Restart -/

/-- The process has just started on the NVM image. -/
structure Started (image : NvmBuffer) (m : Machine) : Prop where
  md : m.md = (mixInitScheduler image).1
  nvm : m.nvm = (mixInitScheduler image).2

/-- After stopping in `m` and starting again, each block is found where it was, and no other
block is found. -/
def RestartKeeps (m : Machine) : Prop :=
  ∀ (idx : SegIdx) (k v : Nat), mixBufferBlockTest (mixInitScheduler m.nvm).1 k idx = v ↔
    mixBufferBlockTest m.md k idx = v

section

variable {m start : Machine} {image : NvmBuffer}

theorem Started.running (began : Started image start) : Running 1024 start :=
  Running.init (show BUFFER_BLOCK_NUM < 2 ^ 32 by decide)
    (began.md.trans (congrArg Prod.fst (mixInitScheduler_eq image)))

/-- Nothing is found in a fresh index. -/
theorem bufferBlockTest_init (blockNum k : Nat) (idx : SegIdx) :
    mixBufferBlockTest (mixMetadataInit blockNum) k idx = -1 := rfl

/-- **A restart keeps the buffer's content exactly when the buffer is empty.** -/
theorem restart_keeps_iff (began : Started image start) {ops : List Operation}
    (reached : exec Machine.operate start ops = some m) :
    RestartKeeps m ↔ ∀ idx, (m.segment idx).hash.entries = [] := by
  obtain ⟨all, -⟩ := began.running.exec (by decide) reached
  have lost : ∀ (idx : SegIdx) (k v : Nat),
      ¬ mixBufferBlockTest (mixInitScheduler m.nvm).1 k idx = v := by
    intro idx k v found
    rw [mixInitScheduler_eq, bufferBlockTest_init] at found
    omega
  constructor
  · intro keeps idx
    refine List.eq_nil_iff_forall_not_mem.2 fun kv entry => ?_
    have key : u32 kv.1 = kv.1 := u32_key ((all idx).key_lt kv entry)
    refine lost idx kv.1 kv.2 ((keeps idx kv.1 kv.2).2 ((all idx).test_eq_iff.2 ?_))
    rwa [key]
  · intro empty idx k v
    refine iff_of_false (lost idx k v) fun found => ?_
    have entry := (all idx).test_eq_iff.1 found
    rw [show (m.md.segments idx).hash.entries = [] from empty idx] at entry
    cases entry

end

/-! ## One buffered block -/

/-- A machine just started on an empty NVM image. -/
def freshStart : Machine :=
  .blank (mixInitScheduler ⟨fun _ _ => 0, fun _ => ⟨0, 0, 0, 0⟩⟩).1
    (mixInitScheduler ⟨fun _ _ => 0, fun _ => ⟨0, 0, 0, 0⟩⟩).2

theorem freshStart_started : Started ⟨fun _ _ => 0, fun _ => ⟨0, 0, 0, 0⟩⟩ freshStart where
  md := by rw [freshStart, Machine.blank]
  nvm := by rw [freshStart, Machine.blank]

/-- A write of block 5 is no longer found after a restart. -/
theorem restart_loses : ∃ m, exec Machine.operate freshStart
    [.task 1 (fun _ => 0) (writeTask 5 1) []] = some m ∧ ¬ RestartKeeps m := by
  have run : (exec Machine.operate freshStart [.task 1 (fun _ => 0) (writeTask 5 1) []]).map
      (fun m => mixBufferBlockTest m.md 5 1) = some 0 := by
    rw [freshStart, mixInitScheduler_eq]
    decide +kernel
  obtain ⟨m, ran, found⟩ := Option.map_eq_some_iff.1 run
  refine ⟨m, ran, fun keeps => ?_⟩
  have still := (keeps 1 5 0).2 found
  rw [mixInitScheduler_eq, bufferBlockTest_init] at still
  omega

/-- After a write of block 5 a restart keeps nothing; after a large write of it there is nothing to
keep. -/
theorem restart_after_writes : ∃ m m',
    exec Machine.operate freshStart [.task 1 (fun _ => 0) (writeTask 5 1) []] = some m ∧
    ¬ RestartKeeps m ∧
    exec Machine.operate freshStart
      [.task 1 (fun _ => 0) (writeTask 5 1) [], .task 1 (fun _ => 0) (writeTask 5 2) []] = some m' ∧
    RestartKeeps m' := by
  have first : (exec Machine.operate freshStart [.task 1 (fun _ => 0) (writeTask 5 1) []]).map
      (fun m => (m.segment 1).hash.entries) = some [(5, 0)] := by
    rw [freshStart, mixInitScheduler_eq]
    decide +kernel
  have second : (exec Machine.operate freshStart
      [.task 1 (fun _ => 0) (writeTask 5 1) [], .task 1 (fun _ => 0) (writeTask 5 2) []]).map
      (fun m => decide (∀ idx, (m.segment idx).hash.entries = [])) = some true := by
    rw [freshStart, mixInitScheduler_eq]
    decide +kernel
  obtain ⟨m, ran, entry⟩ := Option.map_eq_some_iff.1 first
  obtain ⟨m', ran', empty⟩ := Option.map_eq_some_iff.1 second
  refine ⟨m, m', ran, fun keeps => ?_, ran', ?_⟩
  · have nothing := (restart_keeps_iff freshStart_started ran).1 keeps 1
    rw [entry] at nothing
    cases nothing
  · exact (restart_keeps_iff freshStart_started ran').2 (of_decide_eq_true empty)

end Mixdk
