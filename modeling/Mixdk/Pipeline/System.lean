/-
# Pipeline.System -- from a caller to the devices

All of MIXDK's threads at work: a thread for each submit queue posts the requests of its
callers, the scheduler polls the submit queues and posts to the NVM queues and the buffer
queues, each nvm_worker takes in turn from its two queues (by the low bit of `seq`), each
ssd_worker from its SSD queue, the migrate threads drain a segment, and the caller of a
read waits for its counter and frees it.  `Pipeline.step` is one step of one of them.

A thread takes a task in one step and then does its `Deed`s one by one: an NVM task copies
block by block, an SSD task is staged, moved and counted.  A thread that finds its queue
empty, or the queue it posts to full, does not move; only the two polls that turn to
another queue are steps of their own.

A migration begins with every migrate thread at the start of its walk, and ends when all are at the
end.  This leaves out `queue_empty`, the flags of the threads and their count, and so allows all that
the code does, and more: `Joint` has them, and its runs are runs of the pipeline.

`History` records what the threads do, for the statements about runs; nothing reads it
but the last step of `mixdk_read`.
-/
import Mixdk.Async.System
import Mixdk.Pipeline.Polling

namespace Mixdk

set_option autoImplicit false

/-! ## Requests -/

/-- A call of `mixdk_read` or `mixdk_write` without its queue.  `ret` is the counter
`mixdk_read` allocates; neither call sets `type`. -/
inductive Request
  | read (dst len offset flags ret type : Nat)
  | write (src len offset flags type : Nat)
deriving DecidableEq

/-- The task the call posts to submit queue `idx`. -/
def Request.task (idx : Nat) : Request → IoTask
  | .read dst len offset flags ret type =>
      { buf := dst
        len := len
        offset := offset
        ret := ret
        opcode := MIX_READ ||| flags
        type := type
        queueIdx := idx }
  | .write src len offset flags type =>
      { buf := src
        len := len
        offset := offset
        ret := 0
        opcode := MIX_WRITE ||| flags
        type := type
        queueIdx := idx }

/-! ## The scheduler -/

/-- One `mix_enqueue` of the scheduler. -/
inductive Post
  /-- `mix_post_task_to_nvm(task)` -/
  | nvm (task : IoTask)
  /-- one turn of `mix_post_task_to_buffer`, to `buffer_queue[idx]` -/
  | buffer (idx : SegIdx) (task : IoTask)
deriving DecidableEq

def doSchedule (task : IoTask) : List Post :=
  if task.type = NVM_TASK then [.nvm task]
  else if task.type = SSD_TASK then
    (mixPostTaskToBuffer task).map fun part => .buffer part.1 part.2
  else []

theorem doSchedule_nvm {task : IoTask} (type : task.type = NVM_TASK) :
    doSchedule task = [.nvm task] := if_pos type

theorem doSchedule_ssd {task : IoTask} (type : task.type = SSD_TASK) :
    doSchedule task = (mixPostTaskToBuffer task).map fun part => .buffer part.1 part.2 := by
  have notNvm : task.type ≠ NVM_TASK := by
    rw [type]
    decide
  unfold doSchedule
  rw [if_neg notNvm, if_pos type]

/-! ## The workers -/

/-- What an nvm_worker does for its task, step by step. -/
inductive Deed
  | act (a : Action)
  /-- `mix_nvm_read` copies one block. -/
  | nvmRead (dst block : Nat)
  /-- `mix_nvm_write` copies one block. -/
  | nvmWrite (src block : Nat)
deriving DecidableEq

/-- The `NVM_TASK` branch of `nvm_worker`. -/
def nvmWorkerNvmTask (task : IoTask) : List Deed :=
  if opCode task = MIX_READ then
    (List.range task.len).map (fun i => .nvmRead (task.buf + i * BLOCK_SIZE) (task.offset + i)) ++
      [.act (.addRet task.ret task.len)]
  else if opCode task = MIX_WRITE then
    (List.range task.len).map (fun i => .nvmWrite (task.buf + i * BLOCK_SIZE) (task.offset + i)) ++
      [.act (.nvmWriteBlockCompleted task.len)]
  else []

/-- Where an nvm_worker is. -/
inductive NvmPc
  | poll
  /-- It has `deeds` left to do for `task`. -/
  | doing (task : IoTask) (deeds : List Deed)
  /-- It has found its segment full. -/
  | full (task : IoTask)
  /-- It holds `migrate_mutex`. -/
  | migrating (task : IoTask)
deriving DecidableEq

/-- Where an ssd_worker is. -/
inductive SsdPhase
  | poll
  | execute (task : IoTask)
  /-- The blocks are in the staging area. -/
  | staged (task : IoTask)
  /-- They have left it, and are not counted yet. -/
  | moved (task : IoTask)
deriving DecidableEq

namespace Machine

/-- The second half of a task of `ssd_worker`, but for the count. -/
def ssdTaskMove (m : Machine) (idx : SegIdx) (task : IoTask) : Machine :=
  let opCode := task.opcode &&& (MIX_READ ||| MIX_WRITE)
  if opCode = MIX_READ then m.ssdReadCopy task.buf task.len task.offset
  else if opCode = MIX_WRITE then m.ssdWriteFlush task.len task.offset idx
  else m

def ssdTaskCount (m : Machine) (task : IoTask) : Machine :=
  let opCode := task.opcode &&& (MIX_READ ||| MIX_WRITE)
  if opCode = MIX_READ then m.addRet task.ret task.len
  else if opCode = MIX_WRITE then
    { m with completedSsdWriteBlockNum := m.completedSsdWriteBlockNum + task.len }
  else m

theorem ssdTaskCount_move (m : Machine) (idx : SegIdx) (task : IoTask) :
    (m.ssdTaskMove idx task).ssdTaskCount task = m.ssdTaskComplete idx task := by
  unfold ssdTaskMove ssdTaskCount ssdTaskComplete
  by_cases read : task.opcode &&& (MIX_READ ||| MIX_WRITE) = MIX_READ
  · simp only [if_pos read]
  · by_cases write : task.opcode &&& (MIX_READ ||| MIX_WRITE) = MIX_WRITE
    · simp only [if_neg read, if_pos write]
    · simp only [if_neg read, if_neg write]

end Machine

/-! ## The state -/

/-- The queues and workers of one index. -/
structure Station where
  bufferQueue : List IoTask
  nvmQueue : List IoTask
  /-- The low bit of `seq`. -/
  odd : Bool
  nvm : NvmPc
  ssdQueue : List IoTask
  ssd : SsdPhase
deriving DecidableEq

def Station.idle : Station :=
  { bufferQueue := []
    nvmQueue := []
    odd := false
    nvm := .poll
    ssdQueue := []
    ssd := .poll }

/-- What an NVM task does to one block: the nvm_worker, the block, and the data. -/
inductive NvmEvent
  | loaded (idx : SegIdx) (block : Nat) (data : Block)
  | stored (idx : SegIdx) (block : Nat) (data : Block)

/-- What has happened: the requests posted to each submit queue, the NVM tasks each worker is done
with, the counters freed, the blocks delivered (counter and address) and stored (address), and
the accesses to the NVM region. -/
structure History where
  posted : Nat → List Request
  executed : SegIdx → List IoTask
  released : List Nat
  copied : List (Nat × Nat)
  stored : List Nat
  nvmLog : List NvmEvent

structure Pipeline where
  m : Machine
  /-- The blocks at `nvm_addr`. -/
  region : Nat → Block
  /-- The requests still to be posted to each submit queue. -/
  toPost : Nat → List Request
  submitQueue : Nat → List IoTask
  /-- `idx` of the scheduler. -/
  idx : Nat
  /-- What the scheduler has still to post for its task. -/
  hand : List Post
  station : SegIdx → Station
  migration : Option (SegIdx × (Fin MIGRATE_THREAD_NUM → MigratePc))
  history : History

inductive Pipeline.Turn
  /-- `mix_post_task_to_io` for submit queue `i` -/
  | post (i : Nat)
  /-- A `mixdk_read` sees that its task is completed, and frees its counter. -/
  | free (i : Nat) (request : Request)
  | scheduler
  | nvm (idx : SegIdx)
  | ssd (idx : SegIdx)
  | migrate (t : Fin MIGRATE_THREAD_NUM)
deriving DecidableEq

namespace Pipeline

/-- Nothing posted yet, all counters zero. -/
def start (m : Machine) (region : Nat → Block) (requests : Nat → List Request) : Pipeline :=
  { m := { m with
      ret := fun _ => 0
      completedNvmWriteBlockNum := 0
      completedSsdWriteBlockNum := 0 }
    region := region
    toPost := requests
    submitQueue := fun _ => []
    idx := 0
    hand := []
    station := fun _ => .idle
    migration := none
    history :=
      { posted := fun _ => []
        executed := fun _ => []
        released := []
        copied := []
        stored := []
        nvmLog := [] } }

/-- A first start, on devices that hold zeros. -/
def fresh (requests : Nat → List Request) : Pipeline :=
  .start (.blank (mixMetadataInit BUFFER_BLOCK_NUM)
    { data := fun _ _ => 0, metas := fun _ => ⟨0, 0, 0, 0⟩ }) (fun _ _ => 0) requests

def setStation (s : Pipeline) (idx : SegIdx) (station : Station) : Pipeline :=
  { s with station := Function.update s.station idx station }

/-! ## Steps -/

def postStep (submitQueueNum capacity : Nat) (s : Pipeline) (i : Nat) : Option Pipeline :=
  match s.toPost i with
  | [] => none
  | request :: rest =>
      if i < submitQueueNum ∧ (s.submitQueue i).length < capacity then
        some { s with
          toPost := Function.update s.toPost i rest
          submitQueue := Function.update s.submitQueue i (s.submitQueue i ++ [request.task i])
          history := { s.history with
            posted := Function.update s.history.posted i (s.history.posted i ++ [request]) } }
      else none

/-- `mix_wait_for_task_completed(len, task->ret)` returns; `free(task->ret)`. -/
def freeStep (s : Pipeline) (i : Nat) : Request → Option Pipeline
  | .read dst len offset flags ret type =>
      if .read dst len offset flags ret type ∈ s.history.posted i ∧ len ≤ s.m.ret ret ∧
          ret ∉ s.history.released then
        some { s with history := { s.history with released := ret :: s.history.released } }
      else none
  | .write .. => none

def schedulerStep (submitQueueNum capacity : Nat) (s : Pipeline) : Option Pipeline :=
  match s.hand with
  | [] =>
      let next := pollNext submitQueueNum s.idx
      match s.submitQueue s.idx with
      | [] => some { s with idx := next }
      | task :: rest =>
          some { s with
            idx := next
            submitQueue := Function.update s.submitQueue s.idx rest
            hand := doSchedule (handleTask task) }
  | .nvm task :: rest =>
      if h : task.queueIdx < SEGMENT_NUM then
        let idx : SegIdx := ⟨task.queueIdx, h⟩
        if (s.station idx).nvmQueue.length < capacity then
          some { s with
            hand := rest
            station := Function.update s.station idx
              { s.station idx with nvmQueue := (s.station idx).nvmQueue ++ [task] } }
        else none
      else none
  | .buffer idx task :: rest =>
      if (s.station idx).bufferQueue.length < capacity then
        some { s with
          hand := rest
          station := Function.update s.station idx
            { s.station idx with bufferQueue := (s.station idx).bufferQueue ++ [task] } }
      else none

/-- The nvm_worker knows what to do for an SSD task, or has found its segment full. -/
def resume (s : Pipeline) (idx : SegIdx) (station : Station) (task : IoTask) :
    WriteResult → Option Pipeline
  | .done md actions _ =>
      some { s with
        m := { s.m with md := md }
        station := Function.update s.station idx
          { station with nvm := .doing task (actions.map .act) } }
  | .full => some (s.setStation idx { station with nvm := .full task })
  | .spins => none

/-- The nvm_worker has taken `task`. -/
def begin (s : Pipeline) (idx : SegIdx) (station : Station) (task : IoTask) : Option Pipeline :=
  if task.type = NVM_TASK then
    some (s.setStation idx { station with nvm := .doing task (nvmWorkerNvmTask task) })
  else if task.type = SSD_TASK then
    s.resume idx station task (nvmWorkerSsdTask s.m.md task idx)
  else some (s.setStation idx { station with nvm := .doing task [] })

/-- The head of the loop of `nvm_worker`. -/
def pollStep (s : Pipeline) (idx : SegIdx) : Option Pipeline :=
  let station := s.station idx
  if station.odd then
    match station.nvmQueue with
    | [] => some (s.setStation idx { station with odd := false })
    | task :: rest => s.begin idx { station with nvmQueue := rest, odd := false } task
  else
    match station.bufferQueue with
    | [] => some (s.setStation idx { station with odd := true })
    | task :: rest => s.begin idx { station with bufferQueue := rest, odd := true } task

/-- What an action delivers or stores. -/
def note (history : History) (task : IoTask) : Action → History
  | .readFromBuffer dst _ => { history with copied := history.copied ++ [(task.ret, dst)] }
  | .writeToBuffer src _ _ _ => { history with stored := history.stored ++ [src] }
  | _ => history

/-- One deed for `task`; `station` is the nvm_worker's after it. -/
def perform (capacity : Nat) (s : Pipeline) (idx : SegIdx) (station : Station) (task : IoTask) :
    Deed → Option Pipeline
  | .act (.postTaskToSsd posted) =>
      if station.ssdQueue.length < capacity then
        some (s.setStation idx { station with ssdQueue := station.ssdQueue ++ [posted] })
      else none
  | .act a =>
      some { s.setStation idx station with
        m := s.m.perform a
        history := note s.history task a }
  | .nvmRead dst block =>
      some { s.setStation idx station with
        m := { s.m with mem := s.m.mem.storeBlocks dst 1 fun _ => s.region block }
        history := { s.history with
          copied := s.history.copied ++ [(task.ret, dst)]
          nvmLog := s.history.nvmLog ++ [.loaded idx block (s.region block)] } }
  | .nvmWrite src block =>
      some { s.setStation idx station with
        region := Function.update s.region block (s.m.mem.load src)
        history := { s.history with
          stored := s.history.stored ++ [src]
          nvmLog := s.history.nvmLog ++ [.stored idx block (s.m.mem.load src)] } }

/-- The nvm_worker is done with `task`. -/
def finish (s : Pipeline) (idx : SegIdx) (task : IoTask) : Pipeline :=
  { s.setStation idx { s.station idx with nvm := .poll } with
    history :=
      if task.type = NVM_TASK then
        { s.history with
          executed := Function.update s.history.executed idx (s.history.executed idx ++ [task]) }
      else s.history }

/-- `mix_segment_migration_begin`, when the nvm_worker gets `migrate_mutex`. -/
def beginMigration (s : Pipeline) (idx : SegIdx) (task : IoTask) : Option Pipeline :=
  if s.migration = none then
    some { s.setStation idx { s.station idx with nvm := .migrating task } with
      migration := some (idx, fun t => .pop t) }
  else none

/-- `mix_segment_migration_end`; the nvm_worker goes on with its write. -/
def endMigration (s : Pipeline) (idx : SegIdx) (task : IoTask) : Option Pipeline :=
  s.migration.bind fun (_, pc) =>
    if ∀ t, pc t = .done then
      let m := migrationEnd s.m idx
      { s with m := m, migration := none }.resume idx (s.station idx) task
        (redirectWriteAfterMigration m.md task idx).counted
    else none

def nvmStep (capacity : Nat) (s : Pipeline) (idx : SegIdx) : Option Pipeline :=
  match (s.station idx).nvm with
  | .poll => s.pollStep idx
  | .doing task [] => some (s.finish idx task)
  | .doing task (deed :: rest) =>
      s.perform capacity idx { s.station idx with nvm := .doing task rest } task deed
  | .full task => s.beginMigration idx task
  | .migrating task => s.endMigration idx task

/-- What the second half of an SSD task delivers or stores. -/
def noteSsd (history : History) (task : IoTask) : History :=
  let opCode := task.opcode &&& (MIX_READ ||| MIX_WRITE)
  if opCode = MIX_READ then
    { history with copied := history.copied ++
        (List.range task.len).map fun j => (task.ret, task.buf + j * BLOCK_SIZE) }
  else if opCode = MIX_WRITE then
    { history with stored := history.stored ++
        (List.range task.len).map fun j => task.buf + j * BLOCK_SIZE }
  else history

def ssdStep (s : Pipeline) (idx : SegIdx) : Option Pipeline :=
  let station := s.station idx
  match station.ssd with
  | .poll =>
      match station.ssdQueue with
      | [] => none
      | task :: rest =>
          some (s.setStation idx { station with ssdQueue := rest, ssd := .execute task })
  | .execute task =>
      some { s.setStation idx { station with ssd := .staged task } with
        m := s.m.ssdTaskStage idx task }
  | .staged task =>
      some { s.setStation idx { station with ssd := .moved task } with
        m := s.m.ssdTaskMove idx task
        history := noteSsd s.history task }
  | .moved task =>
      some { s.setStation idx { station with ssd := .poll } with
        m := s.m.ssdTaskCount task }

def migrateStep (s : Pipeline) (t : Fin MIGRATE_THREAD_NUM) : Option Pipeline :=
  s.migration.bind fun (idx, pc) =>
    (Mixdk.migrateStep idx { m := s.m, pc := pc } t).map fun next =>
      { s with m := next.m, migration := some (idx, next.pc) }

/-- One step of one thread. -/
def step (submitQueueNum capacity : Nat) (s : Pipeline) : Turn → Option Pipeline
  | .post i => s.postStep submitQueueNum capacity i
  | .free i request => s.freeStep i request
  | .scheduler => s.schedulerStep submitQueueNum capacity
  | .nvm idx => s.nvmStep capacity idx
  | .ssd idx => s.ssdStep idx
  | .migrate t => s.migrateStep t

end Pipeline

end Mixdk
