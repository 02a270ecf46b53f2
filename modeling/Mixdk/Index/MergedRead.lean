/-
# Index.MergedRead -- a read from the buffer and the SSD together

`redirect_read` goes over the blocks of its task once.  A block of the buffer is copied on
the spot; the others are gathered in `read_task`, whose offset is -1 while it is empty, and
which is posted whenever a buffered block or the end of the task comes after it.  So it posts
the maximal runs of unbuffered blocks (`redirectRead_merged`).
-/
import Mixdk.Core.Worker
import Mixdk.Lib.Runs

namespace Mixdk

set_option autoImplicit false

open Runs

/-- The task for a run of unbuffered blocks of `task`. -/
def runTask (task : IoTask) (run : Nat × Nat) : IoTask :=
  { buf := task.buf + (run.1 - task.offset) * BLOCK_SIZE
    len := run.2
    offset := run.1
    ret := task.ret
    opcode := MIX_READ
    type := 0
    queueIdx := 0 }

/-- The task an action posts to the SSD queue. -/
def Action.posted : Action → Option IoTask
  | .postTaskToSsd task => some task
  | _ => none

/-- The copy an action makes from the buffer: where to, and from which block. -/
def Action.copy : Action → Option (Nat × Nat)
  | .readFromBuffer dst block => some (dst, block)
  | _ => none

/-- Block `b` is not in the buffer. -/
def missing (md : Metadata) (idx : SegIdx) (b : Nat) : Bool := mixBufferBlockTest md b idx = -1

/-- The copy `redirect_read` makes for block `i` of its task. -/
def bufferCopy (md : Metadata) (task : IoTask) (idx : SegIdx) (i : Nat) : Option (Nat × Nat) :=
  let offset := mixBufferBlockTest md (task.offset + i) idx
  if offset = -1 then none
  else some (task.buf + i * BLOCK_SIZE, md.bufferBlock idx (ofInt32 offset))

/-- Each buffered block is copied once, the others are posted in maximal runs, and nothing
else is done; the blocks copied and the blocks posted make up the task. -/
structure Merged (md : Metadata) (task : IoTask) (idx : SegIdx) (actions : List Action)
    (ret : Nat) : Prop where
  copies : actions.filterMap Action.copy = (List.range task.len).filterMap (bufferCopy md task idx)
  posts : ∃ runs, Maximal (fun b => mixBufferBlockTest md b idx = -1) task.offset
      (task.offset + task.len) runs ∧
    actions.filterMap Action.posted = runs.map (runTask task)
  only : ∀ a ∈ actions, a.posted.isSome ∨ a.copy.isSome
  total : ret + ((actions.filterMap Action.posted).map IoTask.len).sum = task.len

section

variable {md : Metadata} {task : IoTask} {idx : SegIdx}

/-- `read_task` when the scan is at block `b`, in the run that began at `start` if any. -/
def ReadTaskAt (task : IoTask) (b : Nat) (readTask : IoTask) : Option Nat → Prop
  | none => readTask.offset = NO_OFFSET ∧ readTask.len = 0 ∧ readTask.opcode = MIX_READ ∧
      readTask.type = 0 ∧ readTask.queueIdx = 0
  | some start => start < b ∧ readTask = runTask task (start, b - start)

theorem ReadTaskAt.begin {b : Nat} {readTask : IoTask} (at_ : ReadTaskAt task b readTask none) :
    ReadTaskAt task (b + 1) { readTask with
      offset := b
      len := 1
      buf := task.buf + BLOCK_SIZE * (b - task.offset)
      ret := task.ret } (some b) := by
  obtain ⟨-, -, opcode, type, queueIdx⟩ := at_
  refine ⟨Nat.lt_succ_self b, ?_⟩
  rw [runTask, opcode, type, queueIdx, Nat.add_sub_cancel_left, Nat.mul_comm]

theorem ReadTaskAt.grow {b start : Nat} {readTask : IoTask}
    (at_ : ReadTaskAt task b readTask (some start)) :
    ReadTaskAt task (b + 1) { readTask with len := readTask.len + 1 } (some start) := by
  obtain ⟨begun, rfl⟩ := at_
  refine ⟨Nat.lt_succ_of_lt begun, ?_⟩
  simp only [runTask, Nat.succ_sub (Nat.le_of_lt begun)]

theorem ReadTaskAt.reset {b : Nat} {readTask : IoTask} {start : Option Nat}
    (at_ : ReadTaskAt task b readTask start) :
    ReadTaskAt task (b + 1) { readTask with offset := NO_OFFSET, len := 0 } none := by
  cases start with
  | none => exact ⟨rfl, rfl, at_.2.2⟩
  | some start =>
      obtain ⟨-, rfl⟩ := at_
      exact ⟨rfl, rfl, rfl, rfl, rfl⟩

/-- What the loop still does, `n` blocks before its end. -/
theorem redirectReadLoop_spec (n : Nat) {i : Nat} {readTask : IoTask} {start : Option Nat}
    (inside : task.offset + (i + n) ≤ NO_OFFSET)
    (at_ : ReadTaskAt task (task.offset + i) readTask start) :
    let read := redirectReadLoop md task idx n i readTask
    read.1.filterMap Action.copy = (List.range' i n).filterMap (bufferCopy md task idx) ∧
      read.1.filterMap Action.posted =
        (runsFrom (missing md idx) n (task.offset + i) start).map (runTask task) ∧
      (∀ a ∈ read.1, a.posted.isSome ∨ a.copy.isSome) ∧
      read.2 + ((read.1.filterMap Action.posted).map IoTask.len).sum = readTask.len + n := by
  induction n generalizing i readTask start with
  | zero =>
      cases start with
      | none =>
          obtain ⟨empty, len, -⟩ := at_
          simp [redirectReadLoop, empty, len, runsFrom]
      | some start =>
          obtain ⟨begun, rfl⟩ := at_
          have started : start ≠ NO_OFFSET := by omega
          simp [redirectReadLoop, runTask, started, runsFrom, Action.copy, Action.posted]
  | succ n ih =>
      have next : task.offset + (i + 1) = task.offset + i + 1 := rfl
      have end_ : task.offset + (i + 1 + n) ≤ NO_OFFSET := by omega
      rw [List.range'_succ, List.filterMap_cons]
      by_cases miss : mixBufferBlockTest md (task.offset + i) idx = -1
      · have skipped : bufferCopy md task idx i = none := if_pos miss
        have missed : missing md idx (task.offset + i) = true := decide_eq_true miss
        cases start with
        | none =>
            have empty : readTask.offset = NO_OFFSET := at_.1
            have len : readTask.len = 0 := at_.2.1
            obtain ⟨copies, posts, only, total⟩ := ih end_ (next ▸ at_.begin)
            simp only [redirectReadLoop, miss, empty, if_true, skipped, runsFrom, missed,
              Option.getD_none]
            refine ⟨copies, posts, only, total.trans ?_⟩
            rw [len, Nat.zero_add, Nat.add_comm]
        | some start =>
            have started : readTask.offset ≠ NO_OFFSET := by
              obtain ⟨begun, rfl⟩ := at_
              change start ≠ NO_OFFSET
              omega
            obtain ⟨copies, posts, only, total⟩ := ih end_ (next ▸ at_.grow)
            simp only [redirectReadLoop, miss, started, if_true, if_false, skipped, runsFrom, missed,
              Option.getD_some]
            refine ⟨copies, posts, only, total.trans ?_⟩
            simp only
            omega
      · have copied : bufferCopy md task idx i = some (task.buf + i * BLOCK_SIZE,
            md.bufferBlock idx (ofInt32 (mixBufferBlockTest md (task.offset + i) idx))) := if_neg miss
        have hit : missing md idx (task.offset + i) = false := decide_eq_false miss
        obtain ⟨copies, posts, only, total⟩ := ih end_ (next ▸ at_.reset)
        simp only [redirectReadLoop, if_neg miss, copied, runsFrom, hit]
        cases start with
        | none =>
            have len : readTask.len = 0 := at_.2.1
            simp only [len, Nat.lt_irrefl, if_false, List.nil_append, List.filterMap_cons,
              Action.copy, Action.posted, copies, posts, Bool.false_eq_true]
            refine ⟨trivial, rfl, List.forall_mem_cons.2 ⟨.inr rfl, only⟩, ?_⟩
            rw [posts] at total
            simp only at total
            omega
        | some start =>
            obtain ⟨begun, rfl⟩ := at_
            have some_ : 0 < (runTask task (start, task.offset + i - start)).len :=
              Nat.sub_pos_of_lt begun
            simp only [if_pos some_, List.singleton_append, List.filterMap_cons, Action.copy,
              Action.posted, copies, posts, Bool.false_eq_true, if_false, List.map_cons,
              List.sum_cons]
            refine ⟨trivial, rfl, List.forall_mem_cons.2
              ⟨.inl rfl, List.forall_mem_cons.2 ⟨.inr rfl, only⟩⟩, ?_⟩
            rw [posts] at total
            simp only at total ⊢
            omega

/-- **A read merges the buffer and the SSD.** -/
theorem redirectRead_merged (md : Metadata) (idx : SegIdx) {task : IoTask}
    (inside : task.offset + task.len ≤ SSD_BLOCK_NUM) :
    Merged md task idx (redirectRead md task idx).1 (redirectRead md task idx).2 := by
  have below : task.offset + (0 + task.len) ≤ NO_OFFSET := by
    rw [Nat.zero_add]
    exact le_trans inside (by decide)
  have emptyTask : ReadTaskAt task (task.offset + 0)
      { buf := 0, len := 0, offset := NO_OFFSET, ret := 0, opcode := MIX_READ, type := 0,
        queueIdx := 0 } none := ⟨rfl, rfl, rfl, rfl, rfl⟩
  obtain ⟨copies, posts, only, total⟩ :=
    redirectReadLoop_spec task.len below emptyTask
  rw [← List.range_eq_range'] at copies
  refine ⟨copies, ⟨_, ?_, posts⟩, only, total.trans (Nat.zero_add _)⟩
  have maximal := (runsFrom_maximal (missing md idx) task.len task.offset).1
  simpa only [missing, decide_eq_true_eq, Nat.add_zero] using maximal

end

/-- Three blocks, the middle one of them buffered. -/
theorem redirectRead_merged_around :
    let md := mixWriteRedirectBlockmeta (mixMetadataInit BUFFER_BLOCK_NUM) 1 21 5
    let task : IoTask :=
      { buf := 4096, len := 3, offset := 20, ret := 0, opcode := MIX_READ, type := 0,
        queueIdx := 0 }
    Merged md task 1 (redirectRead md task 1).1 (redirectRead md task 1).2 :=
  redirectRead_merged _ 1 (by decide)

end Mixdk
