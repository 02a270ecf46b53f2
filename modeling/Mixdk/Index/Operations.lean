/-
# Index.Operations -- histories of a machine

One step of a history is a task of a buffer queue, handled to its end with the SSD
tasks it posts, a migration, or a call of `mix_segments_clear`.  A task comes with
the callers' memory at its time and with the interleaving of the migration it may
need.

`TaskEffect` says what a task does to the index and to the NVM; the SSD tasks touch
neither (`ssdWorkerTask_md`, `ssdWorkerTask_nvm`).
-/
import Mixdk.Index.Update

namespace Mixdk

open Transition

set_option autoImplicit false

instance (task : IoTask) : Decidable (InRange task) := by
  unfold InRange
  infer_instance

inductive Operation
  /-- A task of `buffer_queue[idx]`. -/
  | task (idx : SegIdx) (mem : Mem) (task : IoTask) (sched : List (Fin MIGRATE_THREAD_NUM))
  /-- `mix_migrate_segment(idx)` -/
  | migrate (idx : SegIdx) (sched : List (Fin MIGRATE_THREAD_NUM))
  /-- `mix_segments_clear()` -/
  | segmentsClear

/-- A task and then the SSD tasks it posted, to their end. -/
def Machine.runTask (m : Machine) (idx : SegIdx) (task : IoTask)
    (sched : List (Fin MIGRATE_THREAD_NUM)) : Option Machine :=
  (m.nvmWorkerTask idx task sched).map fun done =>
    done.2.foldl (fun m posted => m.ssdWorkerTask idx posted) done.1

/-- One step of a history; blocks that are not keys of the index are refused. -/
def Machine.operate (m : Machine) : Operation → Option Machine
  | .task idx mem task sched =>
      if InRange task then Machine.runTask { m with mem := mem } idx task sched else none
  | .migrate idx sched => mixMigrateSegment m idx sched
  | .segmentsClear => some { m with nvm := mixSegmentsClear m.md m.nvm }

/-! ## What the SSD tasks leave alone -/

section

variable {idx : SegIdx} {m m' : Machine} {task : IoTask} {sched : List (Fin MIGRATE_THREAD_NUM)}

theorem ssdWorkerTask_md (m : Machine) (idx : SegIdx) (task : IoTask) :
    (m.ssdWorkerTask idx task).md = m.md := by
  unfold Machine.ssdWorkerTask
  dsimp only
  split
  · rfl
  · split <;> rfl

theorem ssdWorkerTask_nvm (m : Machine) (idx : SegIdx) (task : IoTask) :
    (m.ssdWorkerTask idx task).nvm = m.nvm := by
  unfold Machine.ssdWorkerTask
  dsimp only
  split
  · rfl
  · split <;> rfl

theorem ssdTasks_frame (idx : SegIdx) (posted : List IoTask) (m : Machine) :
    (posted.foldl (fun m t => m.ssdWorkerTask idx t) m).md = m.md ∧
      (posted.foldl (fun m t => m.ssdWorkerTask idx t) m).nvm = m.nvm := by
  induction posted generalizing m with
  | nil => exact ⟨rfl, rfl⟩
  | cons t posted ih =>
      obtain ⟨md, nvm⟩ := ih (m.ssdWorkerTask idx t)
      exact ⟨md.trans (ssdWorkerTask_md m idx t), nvm.trans (ssdWorkerTask_nvm m idx t)⟩

/-- An action that does not touch the NVM buffer. -/
def Action.reads : Action → Prop
  | .postTaskToSsd _ | .readFromBuffer .. | .addRet .. | .nvmWriteBlockCompleted _ => True
  | _ => False

theorem perform_md (m : Machine) (a : Action) : (m.perform a).md = m.md := by
  cases a <;> rfl

theorem performs_md (actions : List Action) (m : Machine) :
    (actions.foldl Machine.perform m).md = m.md := by
  induction actions generalizing m with
  | nil => rfl
  | cons a actions ih => exact (ih _).trans (perform_md m a)

theorem performs_reads {actions : List Action} (reads : ∀ a ∈ actions, a.reads) (m : Machine) :
    (actions.foldl Machine.perform m).nvm = m.nvm := by
  induction actions generalizing m with
  | nil => rfl
  | cons a actions ih =>
      have here := reads a List.mem_cons_self
      refine (ih (fun b member => reads b (List.mem_cons_of_mem _ member)) _).trans ?_
      cases a <;> first | rfl | cases here

theorem performs_clears (blocks : List Nat) (m : Machine) :
    ((blocks.map Action.bufferClear).foldl Machine.perform m).nvm =
      blocks.foldl mixBufferClear m.nvm := by
  induction blocks generalizing m with
  | nil => rfl
  | cons b blocks ih => exact ih _

theorem redirectReadLoop_reads (md : Metadata) (task : IoTask) (idx : SegIdx) (n i : Nat)
    (readTask : IoTask) : ∀ a ∈ (redirectReadLoop md task idx n i readTask).1, a.reads := by
  induction n generalizing i readTask with
  | zero =>
      intro a member
      simp only [redirectReadLoop] at member
      split at member
      · rw [List.mem_singleton.1 member]
        trivial
      · cases member
  | succ n ih =>
      intro a member
      simp only [redirectReadLoop] at member
      split at member
      · split at member
        · exact ih _ _ a member
        · exact ih _ _ a member
      · simp only [List.mem_append, List.mem_cons] at member
        rcases member with post | rfl | rest
        · split at post
          · rw [List.mem_singleton.1 post]
            trivial
          · cases post
        · trivial
        · exact ih _ _ a rest

/-! ## The effect of a task -/

/-- What a task makes of the index and the NVM buffer. -/
inductive TaskEffect (idx : SegIdx) (task : IoTask) (sched : List (Fin MIGRATE_THREAD_NUM))
    (m m' : Machine) : Prop
  /-- A read, or an opcode that does nothing. -/
  | other (op : opCode task ≠ MIX_WRITE) (md : m'.md = m.md) (nvm : m'.nvm = m.nvm)
  /-- A small write with a slot at hand. -/
  | small (op : opCode task = MIX_WRITE) (len : task.len ≤ WRITE_THRESHOLD) {v : Nat}
      (outcome : SmallWrite m.md task idx (.done m'.md (bufferWrite m.md task idx v) task.len))
      (nvm : m'.nvm = mixBufferWrite m.nvm (m.mem.load task.buf) task.offset
        (m.md.bufferBlock idx v) task.opcode)
  /-- A small write that migrates its segment first. -/
  | migrating (op : opCode task = MIX_WRITE) (len : task.len ≤ WRITE_THRESHOLD)
      (full : SmallWrite m.md task idx .full) {between : Machine}
      (ran : mixMigrateSegment m idx sched = some between) {v : Nat}
      (outcome : SmallWrite between.md task idx
        (.done m'.md (bufferWrite between.md task idx v) task.len))
      (nvm : m'.nvm = mixBufferWrite between.nvm (m.mem.load task.buf) task.offset
        (m.md.bufferBlock idx v) task.opcode)
  /-- A large write. -/
  | large (op : opCode task = MIX_WRITE) (len : WRITE_THRESHOLD < task.len) {removed : List MixKv}
      (cleared : Cleared idx task.offset task.len m.md m'.md removed)
      (nvm : m'.nvm =
        (removed.map fun kv => m.md.bufferBlock idx kv.2).foldl mixBufferClear m.nvm)

/-- A small write brought to effect. -/
theorem finish_smallWrite {md : Metadata} {result : WriteResult} {posted : List IoTask}
    (outcome : SmallWrite md task idx result) {done : Machine}
    (finished : m.finish result.counted = some (done, posted)) : posted = [] ∧ ∃ v,
      result = .done done.md (bufferWrite md task idx v) task.len ∧
      done.nvm = mixBufferWrite m.nvm (m.mem.load task.buf) task.offset
        (md.bufferBlock idx v) task.opcode := by
  cases outcome with
  | full => cases finished
  | spins => cases finished
  | @overwrite v | @enter v | @leak v =>
      simp only [WriteResult.counted, Machine.finish, bufferWrite, List.cons_append,
        List.nil_append, List.foldl_cons, List.foldl_nil, Option.some.injEq, Prod.mk.injEq] at finished
      obtain ⟨rfl, rfl⟩ := finished
      exact ⟨rfl, v, rfl, rfl⟩

theorem runTask_effect (all : AllIndexed m.md) (inRange : InRange task)
    (some_block : 0 < m.md.perBlockNum) (ran : m.runTask idx task sched = some m') :
    TaskEffect idx task sched m m' := by
  obtain ⟨⟨done, posted⟩, worked, rfl⟩ := Option.map_eq_some_iff.1 ran
  obtain ⟨md, nvm⟩ := ssdTasks_frame idx posted done
  simp only at md nvm ⊢
  simp only [Machine.nvmWorkerTask, nvmWorkerSsdTask] at worked
  by_cases read : opCode task = MIX_READ
  · rw [if_pos read] at worked
    simp only [Machine.finish, Option.some.injEq, Prod.mk.injEq] at worked
    obtain ⟨rfl, -⟩ := worked
    refine .other (by rw [read]; decide) (by rw [md, performs_md]) ?_
    rw [nvm, performs_reads]
    intro a member
    rcases List.mem_append.1 member with loop | last
    · exact redirectReadLoop_reads _ _ _ _ _ _ a loop
    · rw [List.mem_singleton.1 last]
      trivial
  · by_cases write : opCode task = MIX_WRITE
    · rw [if_neg read, if_pos write] at worked
      by_cases small : task.len ≤ WRITE_THRESHOLD
      · have outcome := redirectWrite_small (all idx) inRange small
        generalize result_eq : redirectWrite m.md task idx = result at outcome worked
        cases result with
        | full =>
            simp only [WriteResult.counted, Option.bind_eq_some_iff] at worked
            obtain ⟨between, migration, worked⟩ := worked
            have after := migrated (all idx).drainable migration
            have second := redirectWriteAfterMigration_spec after (all idx) some_block inRange
            obtain ⟨-, v, eq, written⟩ := finish_smallWrite second worked
            rw [eq] at second
            refine .migrating write small outcome migration (v := v) (by rwa [md]) ?_
            rw [nvm, written, after.mem, Metadata.bufferBlock_congr after.perBlockNum]
        | spins => cases worked
        | done md' actions ret =>
            obtain ⟨-, v, eq, written⟩ := finish_smallWrite outcome worked
            rw [eq] at outcome
            exact .small write small (v := v) (by rwa [md]) (nvm.trans written)
      · have blocks := clearBlockLoop_spec task.len task.offset m.md (all idx) inRange.2
        obtain ⟨removed, list, cleared⟩ := blocks
        rw [redirectWrite, if_neg small] at worked
        simp only [WriteResult.counted, mixClearBlock, Machine.finish, Option.some.injEq,
          Prod.mk.injEq] at worked
        obtain ⟨rfl, -⟩ := worked
        refine @TaskEffect.large _ _ _ _ _ write (by omega) removed ?_ ?_
        · rw [md, performs_md]
          exact cleared
        · rw [nvm, List.cons_append, List.foldl_cons, List.foldl_append, list]
          exact performs_clears _ _
    · rw [if_neg read, if_neg write] at worked
      simp only [Machine.finish, List.foldl_nil, Option.some.injEq, Prod.mk.injEq] at worked
      obtain ⟨rfl, -⟩ := worked
      exact .other write md nvm

/-! ## What every history keeps -/

theorem SmallWrite.allIndexed {md md' : Metadata} {actions : List Action} {ret : Nat}
    (all : AllIndexed md) (inRange : InRange task)
    (outcome : SmallWrite md task idx (.done md' actions ret)) :
    AllIndexed md' ∧ md'.perBlockNum = md.perBlockNum := by
  have key : task.offset < NO_ENTRY := inRange.key
  cases outcome with
  | overwrite => exact ⟨all, rfl⟩
  | enter absent room first safe =>
      exact ⟨all.setSegment ((all idx).entered absent key first), rfl⟩
  | leak absent room first notSafe => exact ⟨all.setSegment ((all idx).leaked first), rfl⟩

theorem TaskEffect.allIndexed (all : AllIndexed m.md) (inRange : InRange task)
    (effect : TaskEffect idx task sched m m') :
    AllIndexed m'.md ∧ m'.md.perBlockNum = m.md.perBlockNum := by
  cases effect with
  | other _ md _ => rw [md]; exact ⟨all, rfl⟩
  | small _ _ outcome _ => exact outcome.allIndexed all inRange
  | migrating _ _ _ ran outcome _ =>
      have done := migrated (all idx).drainable ran
      have after := outcome.allIndexed (all.migrated done) inRange
      exact ⟨after.1, after.2.trans done.perBlockNum⟩
  | large _ _ cleared _ => exact ⟨all.cleared cleared, cleared.perBlockNum⟩

/-- The invariant of all histories, in a buffer with `P` blocks for each segment. -/
structure Running (P : Nat) (m : Machine) : Prop where
  all : AllIndexed m.md
  perBlockNum : m.md.perBlockNum = P

theorem Running.operate {P : Nat} (some_block : 0 < P) (running : Running P m) {op : Operation}
    (stepped : m.operate op = some m') : Running P m' := by
  obtain ⟨all, rfl⟩ := running
  cases op with
  | task idx mem task sched =>
      simp only [Machine.operate] at stepped
      split at stepped
      · rename_i inRange
        have effect := runTask_effect (m := { m with mem := mem }) all inRange some_block stepped
        obtain ⟨all', size⟩ := TaskEffect.allIndexed (m := { m with mem := mem }) all inRange effect
        exact ⟨all', size⟩
      · cases stepped
  | migrate idx sched =>
      have done := migrated (all idx).drainable stepped
      exact ⟨all.migrated done, done.perBlockNum⟩
  | segmentsClear =>
      cases stepped
      exact ⟨all, rfl⟩

/-- **Every history keeps the index in order.** -/
theorem Running.exec {P : Nat} (some_block : 0 < P) (running : Running P m) {ops : List Operation}
    (ran : exec Machine.operate m ops = some m') : Running P m' :=
  exec_invariant (fun _ _ _ before stepped => before.operate some_block stepped) ran running

theorem Running.init {blockNum : Nat} (word : blockNum < 2 ^ 32) {m : Machine}
    (fresh : m.md = mixMetadataInit blockNum) : Running (blockNum / SEGMENT_NUM) m where
  all := fun idx => by rw [fresh]; exact mixMetadataInit_indexed word idx
  perBlockNum := by rw [fresh]; rfl

end

/-! ## A small machine -/

/-- A write of `len` blocks from block `offset` on. -/
def writeTask (offset len : Nat) : IoTask :=
  { buf := 0, len := len, offset := offset, ret := 0, opcode := MIX_WRITE, type := SSD_TASK,
    queueIdx := 0 }

/-- A machine with eight buffer blocks for each segment. -/
def smallBuffer : Machine :=
  .blank (mixMetadataInit 32) { data := fun _ _ => 0, metas := fun _ => ⟨0, 0, 0, 0⟩ }

end Mixdk
