/-
# Core.Worker -- what an nvm_worker does with a task

`redirect_read` and `redirect_write` of `nvm_worker.c`.  The index of segment
`idx` belongs to worker `idx` alone, so a function here computes what becomes of
the index and, in program order, the actions by which the worker touches what
other threads, a restart or the caller can see (`Action`).

`redirect_write` stops in the middle where it has to migrate the segment:
`WriteResult.full`.  `Machine.redirectWrite` goes on from there, with the
migration threads interleaving as a given schedule says.
-/
import Mixdk.Core.Migrate

namespace Mixdk

set_option autoImplicit false

/-- An effect of a worker outside the index of its segment. -/
inductive Action
  /-- `mix_post_task_to_ssd(&task, idx)` -/
  | postTaskToSsd (task : IoTask)
  /-- `mix_read_from_buffer(dst, block, ..)` -/
  | readFromBuffer (dst block : Nat)
  /-- `mix_write_to_buffer(src, src_block, dst_block, flags)` -/
  | writeToBuffer (src srcBlock dstBlock flags : Nat)
  /-- `mix_buffer_clear(block)` -/
  | bufferClear (block : Nat)
  /-- `atomic_fetch_add_explicit(ret, n, ..)` -/
  | addRet (ret n : Nat)
  /-- `mix_nvm_write_block_completed(n)` -/
  | nvmWriteBlockCompleted (n : Nat)
deriving DecidableEq

/-! ## redirect_read -/

/-- `(size_t)-1`, the offset of a `read_task` that has not been started. -/
def NO_OFFSET : Nat := 2 ^ 64 - 1

/-- The loop of `redirect_read` from turn `i` on, `n` turns to go, with the read task
built so far.  Its `type` and `queue_idx` are never set, and never read. -/
def redirectReadLoop (md : Metadata) (task : IoTask) (idx : SegIdx) :
    Nat → Nat → IoTask → List Action × Nat
  | 0, _, readTask =>
      (if readTask.offset ≠ NO_OFFSET then [.postTaskToSsd readTask] else [], 0)
  | n + 1, i, readTask =>
      let offset := mixBufferBlockTest md (task.offset + i) idx
      if offset = -1 then
        if readTask.offset = NO_OFFSET then
          redirectReadLoop md task idx n (i + 1)
            { readTask with
              offset := task.offset + i
              len := 1
              buf := task.buf + BLOCK_SIZE * (task.offset + i - task.offset)
              ret := task.ret }
        else redirectReadLoop md task idx n (i + 1) { readTask with len := readTask.len + 1 }
      else
        let rest := redirectReadLoop md task idx n (i + 1)
          { readTask with offset := NO_OFFSET, len := 0 }
        let post := if 0 < readTask.len then [.postTaskToSsd readTask] else []
        (post ++ .readFromBuffer (task.buf + i * BLOCK_SIZE)
            (md.bufferBlock idx (ofInt32 offset)) :: rest.1,
          rest.2 + 1)

def redirectRead (md : Metadata) (task : IoTask) (idx : SegIdx) : List Action × Nat :=
  redirectReadLoop md task idx task.len 0
    { buf := 0, len := 0, offset := NO_OFFSET, ret := 0, opcode := MIX_READ, type := 0,
      queueIdx := 0 }

/-! ## redirect_write -/

/-- `threshold` of `nvm_worker.c`: the length up to which a write is buffered. -/
def WRITE_THRESHOLD : Nat := 1

/-- How far `redirect_write` comes on its own. -/
inductive WriteResult
  /-- It returns: the index it leaves, what it did, and its return value. -/
  | done (md : Metadata) (actions : List Action) (ret : Nat)
  /-- `mix_get_next_free_block` returned -1: the segment has to be migrated. -/
  | full
  /-- The search for a free slot does not end. -/
  | spins

/-- The copy into slot `offset` and the return. -/
def writeToSlot (md : Metadata) (task : IoTask) (idx : SegIdx) (offset : Int) : WriteResult :=
  .done md [.writeToBuffer task.buf task.offset (md.bufferBlock idx (ofInt32 offset)) task.opcode]
    task.len

/-- Index the slot just allocated, then copy into it. -/
def writeToNewSlot (md : Metadata) (task : IoTask) (idx : SegIdx) (offset : Int) : WriteResult :=
  writeToSlot (mixWriteRedirectBlockmeta md idx (u32 task.offset) offset) task idx offset

def redirectWrite (md : Metadata) (task : IoTask) (idx : SegIdx) : WriteResult :=
  if task.len ≤ WRITE_THRESHOLD then
    let offset := mixBufferBlockTest md task.offset idx
    if offset = -1 then
      match mixGetNextFreeBlock md idx with
      | none => .spins
      | some (offset, md) => if offset = -1 then .full else writeToNewSlot md task idx offset
    else writeToSlot md task idx offset
  else
    let cleared := mixClearBlock md task idx
    .done cleared.1 (.postTaskToSsd task :: cleared.2.map .bufferClear) 0

/-- The second half of a write that migrated its segment: allocate again. -/
def redirectWriteAfterMigration (md : Metadata) (task : IoTask) (idx : SegIdx) : WriteResult :=
  match mixGetNextFreeBlock md idx with
  | none => .spins
  | some (offset, md) => writeToNewSlot md task idx offset

/-! ## One task of the buffer queue -/

def opCode (task : IoTask) : Nat := task.opcode &&& (MIX_READ ||| MIX_WRITE ||| MIX_CLEAR)

/-- Count the blocks a `redirect_write` reports, after what it did. -/
def WriteResult.counted : WriteResult → WriteResult
  | .done md actions ret => .done md (actions ++ [.nvmWriteBlockCompleted ret]) ret
  | .full => .full
  | .spins => .spins

/-- The `SSD_TASK` branch of `nvm_worker`. -/
def nvmWorkerSsdTask (md : Metadata) (task : IoTask) (idx : SegIdx) : WriteResult :=
  if opCode task = MIX_READ then
    let read := redirectRead md task idx
    .done md (read.1 ++ [.addRet task.ret read.2]) read.2
  else if opCode task = MIX_WRITE then (redirectWrite md task idx).counted
  else .done md [] 0

namespace Machine

/-- One action of a worker.  A posted task goes to a queue, which is not part of the
machine. -/
def perform (m : Machine) : Action → Machine
  | .postTaskToSsd _ => m
  | .readFromBuffer dst block =>
      { m with mem := m.mem.storeBlocks dst 1 fun _ => mixBufferRead m.nvm block }
  | .writeToBuffer src srcBlock dstBlock flags =>
      { m with nvm := mixBufferWrite m.nvm (m.mem.load src) srcBlock dstBlock flags }
  | .bufferClear block => { m with nvm := mixBufferClear m.nvm block }
  | .addRet ret n => m.addRet ret n
  | .nvmWriteBlockCompleted n =>
      { m with completedNvmWriteBlockNum := m.completedNvmWriteBlockNum + n }

/-- The worker brings what it computed to effect; the tasks it posts are collected. -/
def finish (m : Machine) : WriteResult → Option (Machine × List IoTask)
  | .done md actions _ =>
      some (actions.foldl perform { m with md := md },
        actions.filterMap fun
          | .postTaskToSsd task => some task
          | _ => none)
  | _ => none

/-- One task of `buffer_queue[idx]`, handled to its end; a migration it needs interleaves
as `sched` says. -/
def nvmWorkerTask (m : Machine) (idx : SegIdx) (task : IoTask)
    (sched : List (Fin MIGRATE_THREAD_NUM)) : Option (Machine × List IoTask) :=
  match nvmWorkerSsdTask m.md task idx with
  | .full =>
      (mixMigrateSegment m idx sched).bind fun m =>
        m.finish (redirectWriteAfterMigration m.md task idx).counted
  | result => m.finish result

end Machine

end Mixdk
