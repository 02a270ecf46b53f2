/-
# Pipeline.Owed -- what a task still owes

Completion accounting keeps six kinds of tallies (`Item`): for a read, each block copied to
the caller, the number of blocks copied for its counter, and what is added to the counter;
for writes, each block stored, the number of blocks stored, and what is added to the two
write counters.  `Owed` is an amount of each; it is an additive monoid, so what a queue, a
worker or the whole pipeline owes is a sum.

A task owes a copy and a count for each of its blocks.  However it is cut and whichever
worker does it, what comes of it owes the same together: `mixPostTaskToBuffer_due`,
`SsdTaskActions.due`, `nvmWorkerNvmTask_due`.
-/
import Mixdk.Pipeline.Actions
import Mixdk.Pipeline.Steps
import Mathlib.Algebra.BigOperators.Group.Finset.Basic
import Mathlib.Algebra.BigOperators.Pi
import Mathlib.Tactic.Abel

namespace Mixdk

set_option autoImplicit false

inductive Item
  /-- a block delivered to an address, for the read of a counter -/
  | copy (ret dst : Nat)
  /-- the blocks delivered for the read of a counter -/
  | copies (ret : Nat)
  | added (ret : Nat)
  /-- a block stored from an address -/
  | store (src : Nat)
  /-- the blocks stored -/
  | stores
  | counted
deriving DecidableEq

abbrev Owed := Item → Nat

theorem write_ne_read : MIX_WRITE ≠ MIX_READ := by decide

def one (item : Item) : Owed := fun k => if k = item then 1 else 0

@[simp] theorem one_apply (item k : Item) : one item k = if k = item then 1 else 0 := rfl

def delivery (ret dst : Nat) : Owed := one (.copy ret dst) + one (.copies ret)

def storing (src : Nat) : Owed := one (.store src) + one .stores

/-- What it takes to copy `len` blocks. -/
def movesDue (op ret buf len : Nat) : Owed :=
  if op = MIX_READ then ((List.range len).map fun j => delivery ret (buf + j * BLOCK_SIZE)).sum
  else if op = MIX_WRITE then ((List.range len).map fun j => storing (buf + j * BLOCK_SIZE)).sum
  else 0

/-- What it takes to count them. -/
def countsDue (op ret len : Nat) : Owed :=
  if op = MIX_READ then len • one (.added ret)
  else if op = MIX_WRITE then len • one .counted
  else 0

def blocksDue (op ret buf len : Nat) : Owed := movesDue op ret buf len + countsDue op ret len

/-- A task of the scheduler, an NVM queue or a buffer queue. -/
def taskDue (task : IoTask) : Owed := blocksDue (opCode task) task.ret task.buf task.len

/-- A task of an SSD queue. -/
def ssdDue (task : IoTask) : Owed :=
  blocksDue (task.opcode &&& (MIX_READ ||| MIX_WRITE)) task.ret task.buf task.len

def deedDue (task : IoTask) : Deed → Owed
  | .act (.postTaskToSsd posted) => ssdDue posted
  | .act (.readFromBuffer dst _) => delivery task.ret dst
  | .act (.writeToBuffer src _ _ _) => storing src
  | .act (.bufferClear _) => 0
  | .act (.addRet ret n) => n • one (.added ret)
  | .act (.nvmWriteBlockCompleted n) => n • one .counted
  | .nvmRead dst _ => delivery task.ret dst
  | .nvmWrite src _ => storing src

def deedsDue (task : IoTask) (deeds : List Deed) : Owed := (deeds.map (deedDue task)).sum

@[simp] theorem deedsDue_nil (task : IoTask) : deedsDue task [] = 0 := rfl

@[simp] theorem deedsDue_cons (task : IoTask) (deed : Deed) (rest : List Deed) :
    deedsDue task (deed :: rest) = deedDue task deed + deedsDue task rest := by
  simp [deedsDue]

@[simp] theorem deedsDue_append (task : IoTask) (xs ys : List Deed) :
    deedsDue task (xs ++ ys) = deedsDue task xs + deedsDue task ys := by
  simp [deedsDue]

/-! ## Splitting -/

@[simp] theorem movesDue_zero (op ret buf : Nat) : movesDue op ret buf 0 = 0 := by
  simp [movesDue]

@[simp] theorem countsDue_zero (op ret : Nat) : countsDue op ret 0 = 0 := by
  simp [countsDue]

@[simp] theorem blocksDue_zero (op ret buf : Nat) : blocksDue op ret buf 0 = 0 := by
  simp [blocksDue]

theorem sum_range_add (f : Nat → Owed) (a b : Nat) :
    ((List.range (a + b)).map f).sum =
      ((List.range a).map f).sum + ((List.range b).map fun j => f (a + j)).sum := by
  rw [List.range_add, List.map_append, List.sum_append, List.map_map]
  rfl

theorem movesDue_add (op ret buf a b : Nat) : movesDue op ret buf (a + b) =
    movesDue op ret buf a + movesDue op ret (buf + a * BLOCK_SIZE) b := by
  unfold movesDue
  split
  · simp only [sum_range_add, Nat.add_mul, Nat.add_assoc]
  · split
    · simp only [sum_range_add, Nat.add_mul, Nat.add_assoc]
    · rfl

theorem countsDue_add (op ret a b : Nat) :
    countsDue op ret (a + b) = countsDue op ret a + countsDue op ret b := by
  unfold countsDue
  split
  · exact add_nsmul ..
  · split
    · exact add_nsmul ..
    · rfl

theorem blocksDue_add (op ret buf a b : Nat) : blocksDue op ret buf (a + b) =
    blocksDue op ret buf a + blocksDue op ret (buf + a * BLOCK_SIZE) b := by
  rw [blocksDue, movesDue_add, countsDue_add]
  exact add_add_add_comm ..

/-- The parts of a request from block `offset` on. -/
theorem Splits.due {task : IoTask} {offset : Nat} {parts : List (SegIdx × IoTask)}
    (splits : Splits task offset parts) : (parts.map fun part => taskDue part.2).sum =
      blocksDue (opCode task) task.ret (task.buf + (offset - task.offset) * BLOCK_SIZE)
        (task.offset + task.len - offset) := by
  induction splits with
  | done => simp
  | @post offset len rest low high _ _ ih =>
      have ends : task.offset + task.len - offset =
          len + (task.offset + task.len - (offset + len)) := by omega
      have next : task.buf + (offset + len - task.offset) * BLOCK_SIZE =
          task.buf + (offset - task.offset) * BLOCK_SIZE + len * BLOCK_SIZE := by
        rw [Nat.sub_add_comm low, Nat.add_mul, Nat.add_assoc]
      rw [List.map_cons, List.sum_cons, ih, ends, blocksDue_add, next]
      rfl

/-- **The parts of a task owe what the task owes.** -/
theorem mixPostTaskToBuffer_due (task : IoTask) :
    ((mixPostTaskToBuffer task).map fun part => taskDue part.2).sum = taskDue task := by
  have due := (mixPostTaskToBuffer_splits task).due
  simpa [taskDue] using due

section

variable {md md' : Metadata} {task : IoTask} {idx : SegIdx} {actions : List Action} {ret : Nat}

theorem ssdDue_readPart (task : IoTask) (i len : Nat) : ssdDue (readPart task i len) =
    blocksDue MIX_READ task.ret (task.buf + i * BLOCK_SIZE) len := by
  have read : MIX_READ &&& (MIX_READ ||| MIX_WRITE) = MIX_READ := by decide
  simp only [ssdDue, readPart, read, Nat.mul_comm BLOCK_SIZE]

theorem blocksDue_read_one (ret buf : Nat) :
    blocksDue MIX_READ ret buf 1 = delivery ret buf + one (.added ret) := by
  simp [blocksDue, movesDue, countsDue]

theorem Delivers.due {n i : Nat} (delivers : Delivers md task idx n i actions) :
    deedsDue task (actions.map .act) + hits actions • one (.added task.ret) =
      blocksDue MIX_READ task.ret (task.buf + i * BLOCK_SIZE) (n - i) := by
  induction delivers with
  | done => simp
  | @buffer i rest inside _ _ ih =>
      have more : n - i = 1 + (n - (i + 1)) := by omega
      have next : task.buf + (i + 1) * BLOCK_SIZE = task.buf + i * BLOCK_SIZE + 1 * BLOCK_SIZE := by
        rw [Nat.add_mul, Nat.add_assoc]
      rw [more, blocksDue_add, ← next, ← ih, blocksDue_read_one, List.map_cons, deedsDue_cons,
        hits_read, succ_nsmul, deedDue]
      abel
  | @ssd i len rest some_block inside _ _ ih =>
      have more : n - i = len + (n - (i + len)) := by omega
      have next : task.buf + (i + len) * BLOCK_SIZE =
          task.buf + i * BLOCK_SIZE + len * BLOCK_SIZE := by
        rw [Nat.add_mul, Nat.add_assoc]
      rw [more, blocksDue_add, ← next, ← ih, List.map_cons, deedsDue_cons, hits_post, deedDue,
        ssdDue_readPart]
      abel

theorem bufferClears_due (blocks : List Nat) :
    deedsDue task (blocks.map (Deed.act ∘ Action.bufferClear)) = 0 := by
  induction blocks with
  | nil => rfl
  | cons b blocks ih => simpa [deedDue] using ih

/-- **What an nvm_worker does for an SSD task owes what the task owes.** -/
theorem SsdTaskActions.due (inRange : InRange task) (does : SsdTaskActions md task idx actions) :
    deedsDue task (actions.map .act) = taskDue task := by
  cases does with
  | read op delivers =>
      have due := delivers.due
      rw [Nat.zero_mul, Nat.add_zero, Nat.sub_zero] at due
      simpa [taskDue, op, deedDue] using due
  | small op small =>
      have one_block : task.len = 1 := Nat.le_antisymm small inRange.1
      simp [taskDue, op, blocksDue, movesDue, countsDue, write_ne_read, deedDue, one_block]
  | large op =>
      simp [taskDue, ssdDue, op, write_op op, deedDue, bufferClears_due]
  | nothing notRead notWrite =>
      simp [taskDue, blocksDue, movesDue, countsDue, notRead, notWrite]

theorem afterMigration_due (write : opCode task = MIX_WRITE) (one_block : task.len = 1)
    (block : Nat) : deedsDue task
      ([.writeToBuffer task.buf task.offset block task.opcode,
        .nvmWriteBlockCompleted task.len].map .act) = taskDue task := by
  simp [taskDue, write, blocksDue, movesDue, countsDue, write_ne_read, deedDue, one_block]

/-- **What an nvm_worker does for an NVM task owes what the task owes.** -/
theorem nvmWorkerNvmTask_due (task : IoTask) : deedsDue task (nvmWorkerNvmTask task) =
    taskDue task := by
  unfold nvmWorkerNvmTask
  split
  next read =>
    simp [taskDue, read, blocksDue, movesDue, countsDue, deedsDue, deedDue, Function.comp_def]
  next notRead =>
    split
    next write =>
      simp [taskDue, write, blocksDue, movesDue, countsDue, write_ne_read, deedsDue, deedDue,
        Function.comp_def]
    next notWrite => simp [taskDue, blocksDue, movesDue, countsDue, notRead, notWrite]

end

/-! ## Never early -/

/-- At least as much is still to be counted as is to be copied or stored. -/
structure Backed (owed : Owed) : Prop where
  reads : ∀ ret, owed (.copies ret) ≤ owed (.added ret)
  writes : owed .stores ≤ owed .counted

/-- At least as much is copied or stored as is counted. -/
structure CopiesAhead (owed : Owed) : Prop where
  reads : ∀ ret, owed (.added ret) ≤ owed (.copies ret)
  writes : owed .counted ≤ owed .stores

theorem Backed.zero : Backed 0 := ⟨fun _ => Nat.le_refl _, Nat.le_refl _⟩

theorem Backed.add {a b : Owed} (first : Backed a) (second : Backed b) : Backed (a + b) :=
  ⟨fun ret => Nat.add_le_add (first.reads ret) (second.reads ret),
    Nat.add_le_add first.writes second.writes⟩

theorem CopiesAhead.zero : CopiesAhead 0 := ⟨fun _ => Nat.le_refl _, Nat.le_refl _⟩

theorem CopiesAhead.add {a b : Owed} (first : CopiesAhead a) (second : CopiesAhead b) :
    CopiesAhead (a + b) :=
  ⟨fun ret => Nat.add_le_add (first.reads ret) (second.reads ret),
    Nat.add_le_add first.writes second.writes⟩

/-- What is left when the part ahead is done. -/
theorem Backed.of_add {a b : Owed} (whole : Backed (a + b)) (ahead : CopiesAhead a) : Backed b := by
  constructor
  · intro ret
    have both : a (.copies ret) + b (.copies ret) ≤ a (.added ret) + b (.added ret) :=
      whole.reads ret
    have := ahead.reads ret
    omega
  · have both : a .stores + b .stores ≤ a .counted + b .counted := whole.writes
    have := ahead.writes
    omega

theorem Backed.sum {owed : List Owed} (each : ∀ a ∈ owed, Backed a) : Backed owed.sum := by
  induction owed with
  | nil => exact .zero
  | cons a owed ih =>
      rw [List.sum_cons]
      exact (each a List.mem_cons_self).add (ih fun b member => each b (List.mem_cons_of_mem _ member))

/-! ## The tallies of some blocks -/

section

variable (op ret buf len r : Nat)

theorem blocksDue_apply (k : Item) : blocksDue op ret buf len k =
    if op = MIX_READ then
      ((List.range len).map fun j => delivery ret (buf + j * BLOCK_SIZE) k).sum +
        len * one (.added ret) k
    else if op = MIX_WRITE then
      ((List.range len).map fun j => storing (buf + j * BLOCK_SIZE) k).sum + len * one .counted k
    else 0 := by
  unfold blocksDue movesDue countsDue
  split_ifs <;> simp [Pi.list_sum_apply, Function.comp_def]

@[simp] theorem blocksDue_copies : blocksDue op ret buf len (.copies r) =
    if op = MIX_READ ∧ r = ret then len else 0 := by
  rw [blocksDue_apply, ite_and]
  split_ifs with read same write <;> simp [delivery, storing, *]

@[simp] theorem blocksDue_added : blocksDue op ret buf len (.added r) =
    if op = MIX_READ ∧ r = ret then len else 0 := by
  rw [blocksDue_apply, ite_and]
  split_ifs with read same write <;> simp [delivery, storing, *]

@[simp] theorem blocksDue_stores : blocksDue op ret buf len .stores =
    if op = MIX_WRITE then len else 0 := by
  rw [blocksDue_apply]
  by_cases read : op = MIX_READ
  · simp [read, write_ne_read.symm, delivery]
  · simp [read, storing]

@[simp] theorem blocksDue_counted : blocksDue op ret buf len .counted =
    if op = MIX_WRITE then len else 0 := by
  rw [blocksDue_apply]
  by_cases read : op = MIX_READ
  · simp [read, write_ne_read.symm, delivery]
  · simp [read, storing]

end

/-- Blocks owe as many copies as counts. -/
theorem blocksDue_backed (op ret buf len : Nat) : Backed (blocksDue op ret buf len) :=
  ⟨fun r => by rw [blocksDue_copies, blocksDue_added], by rw [blocksDue_stores, blocksDue_counted]⟩

theorem blocksDue_ahead (op ret buf len : Nat) : CopiesAhead (blocksDue op ret buf len) :=
  ⟨fun r => by rw [blocksDue_copies, blocksDue_added], by rw [blocksDue_stores, blocksDue_counted]⟩

theorem countsDue_backed (op ret len : Nat) : Backed (countsDue op ret len) := by
  unfold countsDue
  split
  · exact ⟨fun r => by simp, by simp⟩
  · split
    · exact ⟨fun r => by simp, by simp⟩
    · exact .zero

/-! ## Counting comes last -/

/-- The deed counts blocks. -/
def Deed.Counts : Deed → Prop
  | .act (.addRet _ _) | .act (.nvmWriteBlockCompleted _) => True
  | _ => False

theorem Deed.ahead (task : IoTask) {deed : Deed} (copies : ¬ deed.Counts) :
    CopiesAhead (deedDue task deed) := by
  cases deed with
  | nvmRead dst block => exact ⟨fun r => by simp [deedDue, delivery], by simp [deedDue, delivery]⟩
  | nvmWrite src block => exact ⟨fun r => by simp [deedDue, storing], by simp [deedDue, storing]⟩
  | act a =>
      cases a with
      | postTaskToSsd posted => exact blocksDue_ahead ..
      | readFromBuffer dst block =>
          exact ⟨fun r => by simp [deedDue, delivery], by simp [deedDue, delivery]⟩
      | writeToBuffer src srcBlock dstBlock flags =>
          exact ⟨fun r => by simp [deedDue, storing], by simp [deedDue, storing]⟩
      | bufferClear block => exact .zero
      | addRet _ _ | nvmWriteBlockCompleted _ => exact absurd trivial copies

/-- Whatever is left of the deeds, they are backed. -/
def AlwaysBacked (task : IoTask) (deeds : List Deed) : Prop :=
  ∀ later, later <:+ deeds → Backed (deedsDue task later)

theorem AlwaysBacked.nil (task : IoTask) : AlwaysBacked task [] := by
  intro later suffix_
  rw [List.suffix_nil.1 suffix_]
  exact .zero

theorem AlwaysBacked.tail {task : IoTask} {deed : Deed} {rest : List Deed}
    (backed : AlwaysBacked task (deed :: rest)) : AlwaysBacked task rest :=
  fun later suffix_ => backed later (suffix_.trans (List.suffix_cons deed rest))

/-- Where the one count comes last, the deeds are backed all along. -/
theorem AlwaysBacked.of_last {task : IoTask} {deeds : List Deed} {last : Deed}
    (copies : ∀ deed ∈ deeds, ¬ deed.Counts) (whole : Backed (deedsDue task (deeds ++ [last]))) :
    AlwaysBacked task (deeds ++ [last]) := by
  induction deeds with
  | nil =>
      intro later suffix_
      rcases List.suffix_cons_iff.1 suffix_ with rfl | rest
      · exact whole
      · exact AlwaysBacked.nil task later rest
  | cons deed deeds ih =>
      have ahead := deed.ahead task (copies deed List.mem_cons_self)
      have rest := ih (fun d member => copies d (List.mem_cons_of_mem _ member))
        (whole.of_add (by simpa using ahead))
      intro later suffix_
      rcases List.suffix_cons_iff.1 suffix_ with rfl | inside
      · exact whole
      · exact rest later inside

section

variable {md : Metadata} {task : IoTask} {idx : SegIdx} {actions : List Action}

theorem taskDue_backed (task : IoTask) : Backed (taskDue task) := blocksDue_backed ..

theorem ssdDue_backed (task : IoTask) : Backed (ssdDue task) := blocksDue_backed ..

theorem Delivers.copies {n i : Nat} (delivers : Delivers md task idx n i actions) :
    ∀ deed ∈ actions.map Deed.act, ¬ deed.Counts := by
  induction delivers with
  | done => exact nofun
  | buffer _ _ _ ih => exact List.forall_mem_cons.2 ⟨id, ih⟩
  | ssd _ _ _ _ ih => exact List.forall_mem_cons.2 ⟨id, ih⟩

theorem SsdTaskActions.backed (inRange : InRange task) (does : SsdTaskActions md task idx actions) :
    AlwaysBacked task (actions.map .act) := by
  have whole : Backed (deedsDue task (actions.map .act)) := by
    rw [does.due inRange]
    exact taskDue_backed task
  cases does with
  | read _ delivers =>
      rw [List.map_append] at whole ⊢
      exact .of_last delivers.copies whole
  | small =>
      exact @AlwaysBacked.of_last task [_] _ (List.forall_mem_singleton.2 id) whole
  | large _ _ cleared =>
      rw [← List.cons_append, List.map_append] at whole ⊢
      refine .of_last (List.forall_mem_cons.2 ⟨id, ?_⟩) whole
      intro deed member
      simp only [List.map_map, List.mem_map, Function.comp_apply] at member
      obtain ⟨block, -, rfl⟩ := member
      exact id
  | nothing => exact .nil task

theorem afterMigration_backed {task : IoTask} (write : opCode task = MIX_WRITE)
    (one_block : task.len = 1) (block : Nat) : AlwaysBacked task
      ([.writeToBuffer task.buf task.offset block task.opcode,
        .nvmWriteBlockCompleted task.len].map .act) := by
  have whole : Backed (deedsDue task
      ([.writeToBuffer task.buf task.offset block task.opcode,
        .nvmWriteBlockCompleted task.len].map .act)) := by
    rw [afterMigration_due write one_block]
    exact taskDue_backed task
  exact @AlwaysBacked.of_last task [_] _ (List.forall_mem_singleton.2 id) whole

theorem nvmWorkerNvmTask_backed (task : IoTask) : AlwaysBacked task (nvmWorkerNvmTask task) := by
  have whole : Backed (deedsDue task (nvmWorkerNvmTask task)) := by
    rw [nvmWorkerNvmTask_due]
    exact taskDue_backed task
  unfold nvmWorkerNvmTask at whole ⊢
  split
  next read =>
    rw [if_pos read] at whole
    refine .of_last ?_ whole
    intro deed member
    obtain ⟨i, -, rfl⟩ := List.mem_map.1 member
    exact id
  next notRead =>
    rw [if_neg notRead] at whole
    split
    next write =>
      rw [if_pos write] at whole
      refine .of_last ?_ whole
      intro deed member
      obtain ⟨i, -, rfl⟩ := List.mem_map.1 member
      exact id
    next => exact .nil task

end

end Mixdk
