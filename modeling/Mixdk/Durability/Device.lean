/-
# Durability.Device -- segment 0 up to a crash

The nvm_worker of segment 0 handles a list of writes, in the order in which they were
put into `buffer_queue[0]`; its ssd_worker handles what it posts.  Each turn is one step
of one of the two, or of a migrate thread while the nvm_worker is inside
`mix_migrate_segment`; a list of turns is an interleaving, and a crash can come after
any of them.

The steps are cut finer than in the other models where a crash can tell the difference:
a buffer write goes store by store, and the ssd_worker's `pwrite` and the counting of
its blocks are two steps.  `mix_migrate_segment` first waits for `queue_empty[0]`, which
the ssd_worker sets after each of its polls.

`completed`, and the number a posted write carries with it, are history: the numbers of
the writes counted so far, by the nvm_worker or by the ssd_worker.
-/
import Mixdk.Durability.Stores
import Mixdk.Durability.Recovery
import Mixdk.EndToEnd.Content

namespace Mixdk

open Transition

set_option autoImplicit false

/-- The segment whose slots are numbered like the buffer blocks. -/
def firstSegment : SegIdx := ⟨0, by decide⟩

@[simp] theorem bufferBlock_firstSegment (md : Metadata) (slot : Nat) :
    md.bufferBlock firstSegment slot = slot :=
  bufferBlock_first md rfl slot

/-- A write in the SSD queue: its number, and how many of its blocks, from the first on, have
their records cleared once it is queued. -/
structure Posted where
  number : Nat
  task : IoTask
  clears : Nat
deriving DecidableEq

/-- Where the ssd_worker is. -/
inductive FlushPc
  | poll
  /-- Before `queue_empty[0] = false`. -/
  | dequeued (w : Posted)
  /-- Before `queue_empty[0] = true`. -/
  | foundEmpty
  /-- Before the `memcpy` of `mix_ssd_write`. -/
  | execute (w : Posted)
  /-- Before its `pwrite`. -/
  | staged (w : Posted)
  /-- Before `mix_ssd_write_block_completed`. -/
  | written (w : Posted)
deriving DecidableEq

/-- The ssd_worker has nothing in hand. -/
def FlushPc.Idle (pc : FlushPc) : Prop := pc = .poll ∨ pc = .foundEmpty

/-- Where the nvm_worker is with `mix_migrate_segment`. -/
inductive MigrationPc
  | outside
  /-- In the wait for `mix_ssd_queue_is_empty(0)`. -/
  | waits
  /-- Past it; where the threads are. -/
  | drains (pc : Fin MIGRATE_THREAD_NUM → MigratePc)

structure NvmWorker where
  /-- How many writes it has begun. -/
  begun : Nat
  /-- What is left of the last one. -/
  actions : List Action
  /-- How many stores it has made of the buffer write it is at. -/
  stores : Nat
  migration : MigrationPc

structure Device where
  m : Machine
  worker : NvmWorker
  ssdQueue : List Posted
  /-- `queue_empty[0]` -/
  queueEmpty : Bool
  ssd : FlushPc
  completed : List Nat

/-- Whose turn it is. -/
inductive Turn
  | nvm
  | ssd
  | migrate (t : Fin MIGRATE_THREAD_NUM)
deriving DecidableEq

/-- The action invalidates a record. -/
def Action.clears : Action → Bool
  | .bufferClear _ => true
  | _ => false

namespace Device

/-- Nothing handled, nothing queued. -/
def start (m : Machine) : Device :=
  { m := m, worker := { begun := 0, actions := [], stores := 0, migration := .outside },
    ssdQueue := [], queueEmpty := false, ssd := .poll, completed := [] }

/-- The nvm_worker knows what to do for its next write. -/
def begin (d : Device) : WriteResult → Option Device
  | .done md actions _ =>
      some { d with
        m := d.m.setMd md
        worker :=
          { begun := d.worker.begun + 1, actions := actions, stores := 0, migration := .outside } }
  | _ => none

/-- The nvm_worker goes on with its next action. -/
def next (d : Device) (m : Machine) (actions : List Action) : Device :=
  { d with m := m, worker := { d.worker with actions := actions, stores := 0 } }

/-- The nvm_worker takes `action`, or the next store of it; `rest` comes after it. -/
def act (capacity : Nat) (d : Device) (action : Action) (rest : List Action) : Option Device :=
  match action with
  | .postTaskToSsd task =>
      let posted :=
        { number := d.worker.begun - 1, task := task, clears := rest.countP Action.clears }
      if d.ssdQueue.length < capacity then
        some { d.next d.m rest with ssdQueue := d.ssdQueue ++ [posted] }
      else none
  | .writeToBuffer src srcBlock dstBlock flags =>
      let nvm := bufferStore d.m.nvm (d.m.mem.load src) srcBlock dstBlock flags d.worker.stores
      let m := { d.m with nvm := nvm }
      if d.worker.stores + 1 = BUFFER_STORES then some (d.next m rest)
      else some { d with m := m, worker := { d.worker with stores := d.worker.stores + 1 } }
  | .nvmWriteBlockCompleted n =>
      -- a large write reports no block here; the ssd_worker counts its blocks
      let completed := if 0 < n then (d.worker.begun - 1) :: d.completed else d.completed
      some { d.next (d.m.perform action) rest with completed := completed }
  | _ => some (d.next (d.m.perform action) rest)

/-- The next task of `buffer_queue[0]`. -/
def nextTask (writes : List IoTask) (d : Device) : WriteResult :=
  match writes[d.worker.begun]? with
  | some task => nvmWorkerSsdTask d.m.md task firstSegment
  | none => .spins

def nvmStep (capacity : Nat) (writes : List IoTask) (d : Device) : Option Device :=
  match d.worker.migration with
  | .drains pc =>
      if ∀ t, pc t = .done then
        writes[d.worker.begun]?.bind fun task =>
          let m := migrationEnd d.m firstSegment
          { d with m := m }.begin (redirectWriteAfterMigration m.md task firstSegment).counted
      else none
  | .waits =>
      if d.queueEmpty then
        some { d with worker := { d.worker with migration := .drains fun t => .pop t } }
      else some d
  | .outside =>
      match d.worker.actions with
      | action :: rest => d.act capacity action rest
      | [] =>
          match d.nextTask writes with
          | .full => some { d with worker := { d.worker with migration := .waits } }
          | result => d.begin result

def ssdStep (d : Device) : Option Device :=
  match d.ssd with
  | .poll =>
      match d.ssdQueue with
      | [] => some { d with ssd := .foundEmpty }
      | w :: rest => some { d with ssdQueue := rest, ssd := .dequeued w }
  | .dequeued w => some { d with queueEmpty := false, ssd := .execute w }
  | .foundEmpty => some { d with queueEmpty := true, ssd := .poll }
  | .execute w => some { d with m := d.m.ssdTaskStage firstSegment w.task, ssd := .staged w }
  | .staged w =>
      some { d with
        m := d.m.ssdWriteFlush w.task.len w.task.offset firstSegment
        ssd := .written w }
  | .written w =>
      let count := d.m.completedSsdWriteBlockNum + w.task.len
      some { d with
        m := { d.m with completedSsdWriteBlockNum := count }
        ssd := .poll
        completed := w.number :: d.completed }

def migrateStep (d : Device) (t : Fin MIGRATE_THREAD_NUM) : Option Device :=
  match d.worker.migration with
  | .drains pc =>
      (Mixdk.migrateStep firstSegment { m := d.m, pc := pc } t).map fun s =>
        { d with m := s.m, worker := { d.worker with migration := .drains s.pc } }
  | _ => none

def step (capacity : Nat) (writes : List IoTask) (d : Device) : Turn → Option Device
  | .nvm => d.nvmStep capacity writes
  | .ssd => d.ssdStep
  | .migrate t => d.migrateStep t

/-- The posted writes that are not on the SSD yet, in their order. -/
def pend (d : Device) : List Posted :=
  match d.ssd with
  | .dequeued w | .execute w | .staged w => w :: d.ssdQueue
  | .poll | .foundEmpty | .written _ => d.ssdQueue

end Device

/-! ## What a crash owes -/

/-- Write `number` has block `b`. -/
def Covers (writes : List IoTask) (number b : Nat) : Prop :=
  ∃ task, writes[number]? = some task ∧ task.offset ≤ b ∧ b < task.offset + task.len

/-- `content` is version `v` of block `b`: 0 is what the SSD had at the start, `n + 1` what write
`n` brings. -/
inductive Version (start : Machine) (writes : List IoTask) (b : Nat) : Nat → Block → Prop
  | initial : Version start writes b 0 (start.ssd b)
  | write {number : Nat} {task : IoTask} (nth : writes[number]? = some task)
      (low : task.offset ≤ b) (high : b < task.offset + task.len) :
      Version start writes b (number + 1) (start.blocksAt task.buf (b - task.offset))

/-- After a crash in `d` and a restart, each block has the data of its latest completed write, or
of a write issued after that one. -/
def Device.Durable (start : Machine) (writes : List IoTask) (blockNum : Nat) (d : Device) : Prop :=
  ∀ b < NO_ENTRY, ∃ v, Version start writes b v (d.m.recoveredBlock blockNum firstSegment b) ∧
    v ≤ d.worker.begun ∧ ∀ number ∈ d.completed, Covers writes number b → number < v

/-! ## When it is met -/

/-- A step that loses no block: a write gets a slot it is found in, or clears all its buffered
blocks; a migration gets past its wait when the ssd_worker has nothing to do; and no migrate
thread stages over another. -/
def Device.StepSafe (writes : List IoTask) (d : Device) : Turn → Prop
  | .nvm =>
      (d.worker.migration = .outside → d.worker.actions = [] → ∀ task,
        writes[d.worker.begun]? = some task → WriteSafe d.m.md task firstSegment) ∧
      (d.worker.migration = .waits → d.queueEmpty = true → d.ssdQueue = [] ∧ d.ssd.Idle)
  | .ssd => True
  | .migrate t => ∀ pc, d.worker.migration = .drains pc → Apart { m := d.m, pc := pc } t

/-- The point of a buffer write at which the crash comes shows the slot's old block or the new
one: a valid record's block is not torn, and a record that is valid by now names the block. -/
def StoresWhole (n : NvmBuffer) (stores srcBlock dstBlock : Nat) : Prop :=
  ((n.metas dstBlock).valid = true → stores = 0 ∨ BLOCK_WORDS ≤ stores) ∧
    (BLOCK_WORDS < stores → (n.metas dstBlock).offset = srcBlock)

/-- A crash that loses no completed write. -/
structure Device.CrashSafe (blockNum : Nat) (d : Device) : Prop where
  whole : ∀ src srcBlock dstBlock flags rest,
    d.worker.actions = .writeToBuffer src srcBlock dstBlock flags :: rest →
      StoresWhole d.m.nvm d.worker.stores srcBlock dstBlock
  /-- The blocks a posted write clears are in the buffer until they are on the SSD. -/
  held : ∀ w ∈ d.pend, ∀ b, w.task.offset ≤ b → b < w.task.offset + w.clears →
    ∃ v < (mixMetadataInit blockNum).perBlockNum, RecordNames d.m.nvm v b
  /-- A large write is not counted before its records are cleared. -/
  cleared : ∀ a ∈ d.worker.actions, a.clears = true → d.worker.begun - 1 ∉ d.completed

end Mixdk
