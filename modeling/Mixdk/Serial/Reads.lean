/-
# Serial.Reads -- what a reader finds in its buffer

Nothing but the copies of reads changes the callers' memory (`StepCases.copies`), and there are no
more of them than the batch asks for.  So memory that no read fills stays as it is, and so does the
buffer of a read once all its blocks are there (`mem_kept`).

Hence what a caller finds in its buffer when its counter has reached the length is what the buffer
holds ever after (`read_kept`), whatever the threads do later.
-/
import Mixdk.Serial.Disk
import Mixdk.Pipeline.Completion
import Mixdk.Pipeline.Release

namespace Mixdk

open Transition

set_option autoImplicit false

namespace Pipeline

/-! ## Copies -/

section

variable {submitQueueNum capacity : Nat} {requests : Nat → List Request} {s t u : Pipeline}
  {idx : SegIdx}

theorem migrateAction_mem {T : Nat} {thread : Fin T} {m : Machine} {pc : MigratePc}
    {next : Machine × MigratePc} (moved : migrateAction idx thread m pc = some next) :
    next.1.mem = m.mem := by
  cases pc with
  | pop bucket =>
      simp only [migrateAction] at moved
      split at moved
      · obtain ⟨popped, -, rfl⟩ := Option.map_eq_some_iff.1 moved
        split <;> rfl
      · cases moved
        rfl
  | read | stage | flush | clear | count =>
      cases moved
      rfl
  | done => cases moved

/-- What a step copies to the callers covers what it changes of their memory. -/
def Copies (s t : Pipeline) : Prop :=
  ∃ new, t.history.copied = s.history.copied ++ new ∧
    ∀ a, t.m.mem a ≠ s.m.mem a → ∃ copy ∈ new, copy.2 ≤ a ∧ a < copy.2 + BLOCK_SIZE

theorem Copies.none (copied : t.history.copied = s.history.copied) (mem : t.m.mem = s.m.mem) :
    s.Copies t :=
  ⟨[], by rw [copied, List.append_nil], fun a changed => absurd (congrFun mem a) changed⟩

theorem Copies.blocks (ret : Nat) {dst len : Nat} (data : Nat → Block)
    (copied : t.history.copied = s.history.copied ++ (addresses dst len).map (Prod.mk ret))
    (mem : t.m.mem = s.m.mem.storeBlocks dst len data) : s.Copies t := by
  refine ⟨_, copied, fun a changed => ?_⟩
  by_cases inside : dst ≤ a ∧ a < dst + len * BLOCK_SIZE
  · -- the block of the address
    have below := div_block_lt inside.2 inside.1
    have split := Nat.div_add_mod (a - dst) BLOCK_SIZE
    have small := Nat.mod_lt (a - dst) (show 0 < BLOCK_SIZE by decide)
    refine ⟨_, List.mem_map_of_mem (List.mem_map_of_mem (List.mem_range.2 below)), ?_⟩
    rw [Nat.mul_comm]
    omega
  · rw [mem, Mem.storeBlocks_outside inside] at changed
    exact absurd rfl changed

theorem Copies.block {ret dst : Nat} (data : Block)
    (copied : t.history.copied = s.history.copied ++ [(ret, dst)])
    (mem : t.m.mem = s.m.mem.storeBlocks dst 1 fun _ => data) : s.Copies t :=
  have one : (addresses dst 1).map (Prod.mk ret) = [(ret, dst)] := by
    simp [addresses]
  .blocks ret (fun _ => data) (one ▸ copied) mem

theorem nvm_copies (step : NvmStep s idx t) : s.Copies t := by
  cases step with
  | @nvmRead task dst block => exact .block (s.region block) rfl rfl
  | @act task a =>
      cases a with
      | readFromBuffer dst block => exact .block (mixBufferRead s.m.nvm block) rfl rfl
      | postTaskToSsd | writeToBuffer | bufferClear | addRet | nvmWriteBlockCompleted =>
          exact .none rfl rfl
  | finish =>
      unfold Pipeline.finish
      split <;> exact .none rfl rfl
  | turn | nvmTask | ssdTask | full | noTask | postSsd | nvmWrite | beginMigration
  | endMigration => exact .none rfl rfl

theorem ssd_copies (step : SsdStep s idx t) : s.Copies t := by
  cases step with
  | take => exact .none rfl rfl
  | @stage task _ =>
      refine .none rfl ?_
      change (s.m.ssdTaskStage idx task).mem = s.m.mem
      unfold Machine.ssdTaskStage
      dsimp only
      split
      · rfl
      · split <;> rfl
  | @move task _ =>
      unfold Machine.ssdTaskMove noteSsd
      dsimp only
      by_cases read : task.opcode &&& (MIX_READ ||| MIX_WRITE) = MIX_READ
      · simp only [if_pos read]
        refine .blocks task.ret (fun j => s.m.memalignDst (stagingBlock (readSlot task.offset) + j)) ?_ rfl
        rw [addresses, List.map_map]
        rfl
      · simp only [if_neg read]
        split <;> exact .none rfl rfl
  | @count task _ =>
      refine .none rfl ?_
      change (s.m.ssdTaskCount task).mem = s.m.mem
      unfold Machine.ssdTaskCount
      dsimp only
      split
      · rfl
      · split <;> rfl

/-- **Nothing but the copies of reads changes the callers' memory.** -/
theorem StepCases.copies {turn : Turn} (cases_ : StepCases submitQueueNum s turn t) :
    s.Copies t := by
  cases cases_ with
  | front step => cases step <;> exact .none rfl rfl
  | nvm idx is step => exact nvm_copies step
  | ssd idx is step => exact ssd_copies step
  | migrate thread is migration moved result =>
      subst result
      obtain ⟨next, action, rfl⟩ := Option.map_eq_some_iff.1 moved
      exact .none rfl (migrateAction_mem action)

/-- Memory stays as it is where all that the batch copies has been copied. -/
theorem mem_kept {guard : Pipeline → Turn → Prop} {turns : List Turn} {a : Nat}
    (run : Run (Pipeline.step submitQueueNum capacity) guard u turns s)
    (accounted : u.Accounted submitQueueNum requests)
    (copied : ∀ ret dst, dst ≤ a → a < dst + BLOCK_SIZE →
      ((batch submitQueueNum requests).map Request.due).sum (.copy ret dst) ≤
        u.history.copied.count (ret, dst)) :
    s.m.mem a = u.m.mem a := by
  induction run with
  | nil => rfl
  | @cons u v s turn turns met stepped later ih =>
      have cases_ := step_cases stepped
      have accounted' := accounted.step cases_
      obtain ⟨new, grown, covers⟩ := cases_.copies
      have grows : ∀ copy, u.history.copied.count copy ≤ v.history.copied.count copy := by
        intro copy
        rw [grown, List.count_append]
        exact Nat.le_add_right _ _
      have same : v.m.mem a = u.m.mem a := by
        by_contra changed
        obtain ⟨⟨ret, dst⟩, member, low, high⟩ := covers a changed
        -- one copy more than the batch asks for
        have total : v.done (.copy ret dst) + v.due submitQueueNum (.copy ret dst) = _ :=
          congrFun accounted'.total (.copy ret dst)
        have here : v.done (.copy ret dst) = v.history.copied.count (ret, dst) := rfl
        have one : 0 < new.count (ret, dst) := List.count_pos_iff.2 member
        have before := copied ret dst low high
        rw [grown, List.count_append] at here
        omega
      rw [ih accounted' fun ret dst low high => (copied ret dst low high).trans (grows _), same]

end

end Pipeline

/-! ## Whose copies they are -/

section

variable {submitQueueNum capacity : Nat} {requests : Nat → List Request} {t u : IoTask}
  {dst len offset flags ret type a d : Nat}

theorem block_of_address (member : d ∈ addresses dst len) (low : d ≤ a) (high : a < d + BLOCK_SIZE) :
    dst ≤ a ∧ a < dst + len * BLOCK_SIZE := by
  obtain ⟨j, inside, rfl⟩ := List.mem_map.1 member
  have bound := Nat.mul_le_mul_right BLOCK_SIZE (Nat.succ_le_of_lt (List.mem_range.1 inside))
  rw [Nat.succ_mul] at bound
  omega

/-- A block that a request copies is one of a read. -/
theorem Request.of_copy {request : Request} (owes : 0 < request.due (.copy ret d)) :
    ∃ dst len offset flags type, request = .read dst len offset flags ret type ∧
      d ∈ addresses dst len := by
  cases request with
  | read dst len offset flags r type =>
      simp only [Request.due, taskDue, blocksDue_copy] at owes
      split at owes
      next own =>
        obtain rfl : ret = r := own.2
        exact ⟨dst, len, offset, flags, type, rfl, List.count_pos_iff.1 owes⟩
      next => cases owes
  | write src len offset flags type =>
      simp only [Request.due, taskDue, blocksDue_copy] at owes
      rw [if_neg fun own => write_opCode src len offset flags type 0 own.1] at owes
      cases owes

theorem batch_copy (owes : 0 < ((batch submitQueueNum requests).map Request.due).sum (.copy ret d)) :
    ∃ dst len offset flags type,
      .read dst len offset flags ret type ∈ batch submitQueueNum requests ∧
        d ∈ addresses dst len := by
  rw [Pi.list_sum_apply, List.map_map] at owes
  obtain ⟨n, member, positive⟩ := List.exists_mem_ne_zero_of_sum_ne_zero (Nat.ne_of_gt owes)
  obtain ⟨request, there, rfl⟩ := List.mem_map.1 member
  obtain ⟨dst, len, offset, flags, type, rfl, inside⟩ :=
    Request.of_copy (Nat.pos_of_ne_zero positive)
  exact ⟨dst, len, offset, flags, type, there, inside⟩

theorem mem_batch {request : Request} : request ∈ batch submitQueueNum requests ↔
    ∃ i < submitQueueNum, request ∈ requests i := by
  simp only [batch, List.mem_flatMap, List.mem_range]

theorem mem_batchTasks : t ∈ batchTasks submitQueueNum requests ↔
    ∃ i < submitQueueNum, ∃ request ∈ requests i, request.task i = t := by
  simp only [batchTasks, List.mem_flatMap, List.mem_range, List.mem_map]

instance : Std.Symm IoTask.Separate := ⟨fun _ _ separate => separate.symm⟩

/-- A read fills no memory of a request that is separate from it. -/
theorem IoTask.Separate.unread (separate : t.Separate u) (read : opCode u = MIX_READ)
    (here : t.buf ≤ a ∧ a < t.buf + t.len * BLOCK_SIZE) :
    ¬ (u.buf ≤ a ∧ a < u.buf + u.len * BLOCK_SIZE) := by
  intro there
  have apart := separate.1 (.inr (decide_eq_true read))
  simp only [taskClaim] at apart
  rcases apart with empty | empty | before | after
  · rw [empty] at here
    omega
  · rw [empty] at there
    omega
  · omega
  · omega

end

/-! ## What stays as it is -/

section

variable {submitQueueNum capacity : Nat} {requests : Nat → List Request} {m : Machine}
  {region : Nat → Block} {s u : Pipeline} {past future : List Pipeline.Turn}

/-- Memory that no read fills is left alone. -/
theorem unread_kept {guard : Pipeline → Pipeline.Turn → Prop}
    (plain : ∀ i, ∀ request ∈ requests i, request.Plain) {a : Nat}
    (unread : ∀ t ∈ batchTasks submitQueueNum requests, opCode t = MIX_READ →
      ¬ (t.buf ≤ a ∧ a < t.buf + t.len * BLOCK_SIZE))
    (run : Run (Pipeline.step submitQueueNum capacity) guard (.start m region requests) past u) :
    u.m.mem a = m.mem a := by
  have regional := fun i request member => (plain i request member).regional
  refine Pipeline.mem_kept run (Pipeline.start_accounted m region regional) fun ret d low high => ?_
  refine Nat.le_of_not_lt fun owes => ?_
  obtain ⟨dst, len, offset, flags, type, member, inside⟩ := batch_copy (Nat.zero_lt_of_lt owes)
  obtain ⟨i, below, there⟩ := mem_batch.1 member
  exact unread _ (mem_batchTasks.2 ⟨i, below, _, there, rfl⟩) (opCode_flags (plain i _ there).1)
    (block_of_address inside low high)

/-- And so is the buffer of a read that is complete. -/
theorem read_kept {guard : Pipeline → Pipeline.Turn → Prop}
    (plain : ∀ i, ∀ request ∈ requests i, request.Plain)
    (distinct : ((batch submitQueueNum requests).filterMap Request.ret?).Nodup)
    (separate : (batchTasks submitQueueNum requests).Pairwise IoTask.Separate)
    (accounted : u.Accounted submitQueueNum requests)
    {i dst len offset flags ret type : Nat} (queue : i < submitQueueNum)
    (member : .read dst len offset flags ret type ∈ requests i) (complete : len ≤ u.m.ret ret)
    (run : Run (Pipeline.step submitQueueNum capacity) guard u future s) {a : Nat}
    (inside : dst ≤ a ∧ a < dst + len * BLOCK_SIZE) : s.m.mem a = u.m.mem a := by
  have inBatch := mem_batch.2 ⟨i, queue, member⟩
  refine Pipeline.mem_kept run accounted fun r d low high => ?_
  refine Nat.le_of_not_lt fun owes => ?_
  obtain ⟨dst', len', offset', flags', type', member', block⟩ := batch_copy (Nat.zero_lt_of_lt owes)
  by_cases same : r = ret
  · -- its own block has been copied
    subst same
    cases read_unique distinct inBatch member' rfl rfl
    have delivered := accounted.delivered plain distinct inBatch
    have all : u.history.delivered r dst len = (addresses dst len).length := by
      refine Nat.le_antisymm List.countP_le_length ?_
      rw [addresses, List.length_map, List.length_range]
      exact Nat.le_trans complete delivered
    have there : (r, d) ∈ u.history.copied := by
      simpa using List.countP_eq_length.1 all d block
    have once : (addresses dst len).count d ≤ 1 :=
      List.nodup_iff_count_le_one.1 (addresses_nodup dst len) d
    rw [batch_read distinct inBatch rfl rfl, (plain i _ member).read_due, blocksDue_copy,
      if_pos ⟨rfl, rfl⟩] at owes
    have here := List.count_pos_iff.2 there
    omega
  · obtain ⟨j, below, there⟩ := mem_batch.1 member'
    have different : (Request.read dst len offset flags ret type).task i ≠
        (Request.read dst' len' offset' flags' r type').task j :=
      fun eq => same (congrArg IoTask.ret eq).symm
    have apart := separate.forall
      (mem_batchTasks.2 ⟨i, queue, _, member, rfl⟩)
      (mem_batchTasks.2 ⟨j, below, _, there, rfl⟩) different
    exact apart.unread (opCode_flags (plain j _ there).1) inside (block_of_address block low high)

end

/-! ## The order of the requests -/

/-- Requests that read to other memory leave an address alone. -/
theorem Disk.foldl_mem {tasks : List IoTask} {a : Nat} (d : Disk)
    (unread : ∀ t ∈ tasks, opCode t = MIX_READ →
      ¬ (t.buf ≤ a ∧ a < t.buf + t.len * BLOCK_SIZE)) :
    (tasks.foldl Disk.handle d).mem a = d.mem a := by
  induction tasks generalizing d with
  | nil => rfl
  | cons t tasks ih =>
      obtain ⟨here, later⟩ := List.forall_mem_cons.1 unread
      rw [List.foldl_cons, ih (d.handle t) later]
      by_cases read : opCode t = MIX_READ
      · rw [Disk.handle_read d read]
        dsimp only
        exact Mem.storeBlocks_outside (here read)
      · rw [Disk.handle, if_neg read]
        split <;> rfl

end Mixdk
