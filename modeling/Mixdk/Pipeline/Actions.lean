/-
# Pipeline.Actions -- the actions of an SSD task

The actions an nvm_worker takes for a task of its buffer queue come in four forms
(`SsdTaskActions`): a read delivers its blocks and then adds the number of those that were
buffered; a write of one block copies it into a slot and counts it; a larger write passes
the task on, invalidates records and counts nothing; anything else does nothing.  The
state of the index decides which blocks and slots they are about, not the form.
-/
import Mixdk.Async.Subtask

namespace Mixdk

set_option autoImplicit false

/-- The blocks that are read from the buffer. -/
def hits (actions : List Action) : Nat :=
  actions.countP fun
    | .readFromBuffer _ _ => true
    | _ => false

@[simp] theorem hits_nil : hits [] = 0 := rfl

@[simp] theorem hits_append (xs ys : List Action) : hits (xs ++ ys) = hits xs + hits ys :=
  List.countP_append

@[simp] theorem hits_read (dst block : Nat) (rest : List Action) :
    hits (.readFromBuffer dst block :: rest) = hits rest + 1 :=
  List.countP_cons_of_pos rfl

@[simp] theorem hits_post (task : IoTask) (rest : List Action) :
    hits (.postTaskToSsd task :: rest) = hits rest :=
  List.countP_cons_of_neg (by simp)

section

variable {md md' : Metadata} {task : IoTask} {idx : SegIdx} {actions : List Action} {ret : Nat}

/-- `redirect_read` returns the number of blocks it read from the buffer. -/
theorem redirectReadLoop_ret (n i : Nat) (readTask : IoTask) :
    (redirectReadLoop md task idx n i readTask).2 =
      hits (redirectReadLoop md task idx n i readTask).1 := by
  induction n generalizing i readTask with
  | zero =>
      simp only [redirectReadLoop]
      split <;> simp
  | succ n ih =>
      simp only [redirectReadLoop]
      split
      · split <;> exact ih ..
      · simp only [hits_append, hits_read, ih]
        split <;> simp

/-- What an nvm_worker does for a task of its buffer queue. -/
inductive SsdTaskActions (md : Metadata) (task : IoTask) (idx : SegIdx) : List Action → Prop
  | read {reads : List Action} (op : opCode task = MIX_READ)
      (delivers : Delivers md task idx task.len 0 reads) :
      SsdTaskActions md task idx (reads ++ [.addRet task.ret (hits reads)])
  | small (op : opCode task = MIX_WRITE) (small : task.len ≤ WRITE_THRESHOLD) (block : Nat) :
      SsdTaskActions md task idx
        [.writeToBuffer task.buf task.offset block task.opcode, .nvmWriteBlockCompleted task.len]
  | large (op : opCode task = MIX_WRITE) (large : ¬ task.len ≤ WRITE_THRESHOLD)
      (cleared : List Nat) :
      SsdTaskActions md task idx
        (.postTaskToSsd task :: (cleared.map .bufferClear ++ [.nvmWriteBlockCompleted 0]))
  | nothing (notRead : opCode task ≠ MIX_READ) (notWrite : opCode task ≠ MIX_WRITE) :
      SsdTaskActions md task idx []

/-- Whatever slot it is, the write copies into it and reports its length. -/
theorem writeToSlot_actions {offset : Int}
    (done : (writeToSlot md task idx offset).counted = .done md' actions ret) : ∃ block, actions =
      [.writeToBuffer task.buf task.offset block task.opcode, .nvmWriteBlockCompleted task.len] := by
  cases done
  exact ⟨_, rfl⟩

theorem redirectWrite_actions (write : opCode task = MIX_WRITE)
    (done : (redirectWrite md task idx).counted = .done md' actions ret) :
    SsdTaskActions md task idx actions := by
  unfold redirectWrite at done
  split at done
  next small =>
    have slot : ∃ block, actions =
        [.writeToBuffer task.buf task.offset block task.opcode,
          .nvmWriteBlockCompleted task.len] := by
      dsimp only at done
      split at done
      · split at done
        · cases done
        · split at done
          · cases done
          · exact writeToSlot_actions done
      · exact writeToSlot_actions done
    obtain ⟨block, rfl⟩ := slot
    exact .small write small block
  next large =>
    cases done
    exact .large write large _

theorem nvmWorkerSsdTask_actions (inRange : InRange task)
    (done : nvmWorkerSsdTask md task idx = .done md' actions ret) :
    SsdTaskActions md task idx actions := by
  unfold nvmWorkerSsdTask at done
  split at done
  next read =>
    cases done
    have count : (redirectRead md task idx).2 = hits (redirectRead md task idx).1 :=
      redirectReadLoop_ret ..
    rw [count]
    exact .read read (redirectRead_delivers inRange)
  next notRead =>
    split at done
    next write => exact redirectWrite_actions write done
    next notWrite =>
      cases done
      exact .nothing notRead notWrite

/-- A write that migrated its segment goes on like a small one. -/
theorem afterMigration_actions
    (done : (redirectWriteAfterMigration md task idx).counted = .done md' actions ret) :
    ∃ block, actions =
      [.writeToBuffer task.buf task.offset block task.opcode, .nvmWriteBlockCompleted task.len] := by
  unfold redirectWriteAfterMigration at done
  split at done
  · cases done
  · exact writeToSlot_actions done

end

end Mixdk
