/-
# Async.System -- the workers and their queues

The machine with the tasks the scheduler has not posted yet, and for each segment a
`Lane`: the buffer queue, what the nvm_worker has still to do for its task, the SSD
queue, and where the ssd_worker is.  `step` is one step of one thread.

* The scheduler appends its next task to the buffer queue of the task's segment.
* An nvm_worker that has nothing left to do takes the next task and computes what to
  do from its index, which no other thread reads; otherwise it takes its next action.
* An ssd_worker takes the next task, or does half of the one in hand.

A thread that finds its queue empty, or the queue it posts to full, does not move.
Nor does an nvm_worker whose segment is full: to migrate is a step of its own
(`migrateStep`).  `mix_migrate_segment` waits for `queue_empty[idx]` first; as that
flag says nothing about the queue at that time (Handshake.QueueEmpty), the step is
possible whatever the queue holds.
-/
import Mixdk.Core.Scheduler
import Mixdk.Lib.Transition

namespace Mixdk

set_option autoImplicit false

/-- Where an ssd_worker is. -/
inductive SsdPc
  | poll
  /-- Before the first half of a task. -/
  | execute (task : IoTask)
  /-- Before the second half. -/
  | staged (task : IoTask)
deriving DecidableEq

structure Lane where
  bufferQueue : List IoTask
  /-- What is left of the nvm_worker's task. -/
  actions : List Action
  ssdQueue : List IoTask
  ssd : SsdPc
deriving DecidableEq

/-- Nothing queued, both workers waiting. -/
def Lane.idle : Lane := { bufferQueue := [], actions := [], ssdQueue := [], ssd := .poll }

structure System where
  m : Machine
  /-- The tasks the scheduler has still to post. -/
  todo : List (SegIdx × IoTask)
  lane : SegIdx → Lane

inductive Thread
  | scheduler
  | nvm (idx : SegIdx)
  | ssd (idx : SegIdx)
deriving DecidableEq

namespace System

/-- The scheduler has these tasks to post, all queues are empty. -/
def start (m : Machine) (todo : List (SegIdx × IoTask)) : System :=
  { m := m, todo := todo, lane := fun _ => .idle }

/-- Nothing is left to do. -/
def Idle (s : System) : Prop := s.todo = [] ∧ ∀ idx, s.lane idx = .idle

instance (s : System) : Decidable s.Idle := by
  unfold Idle
  infer_instance

def setLane (s : System) (idx : SegIdx) (lane : Lane) : System :=
  { s with lane := Function.update s.lane idx lane }

/-- The nvm_worker takes a task off its queue and knows what to do for it. -/
def begin (s : System) (idx : SegIdx) (rest : List IoTask) : WriteResult → Option System
  | .done md actions _ =>
      some { s with
        m := { s.m with md := md }
        lane := Function.update s.lane idx
          { s.lane idx with bufferQueue := rest, actions := actions } }
  | _ => none

def schedulerStep (capacity : Nat) (s : System) : Option System :=
  match s.todo with
  | [] => none
  | (idx, task) :: rest =>
      if (s.lane idx).bufferQueue.length < capacity then
        some { s with
          todo := rest
          lane := Function.update s.lane idx
            { s.lane idx with bufferQueue := (s.lane idx).bufferQueue ++ [task] } }
      else none

def nvmStep (capacity : Nat) (s : System) (idx : SegIdx) : Option System :=
  match (s.lane idx).actions with
  | [] =>
      match (s.lane idx).bufferQueue with
      | [] => none
      | task :: rest => s.begin idx rest (nvmWorkerSsdTask s.m.md task idx)
  | .postTaskToSsd task :: rest =>
      if (s.lane idx).ssdQueue.length < capacity then
        some (s.setLane idx { s.lane idx with
          actions := rest, ssdQueue := (s.lane idx).ssdQueue ++ [task] })
      else none
  | a :: rest =>
      some { s with
        m := s.m.perform a
        lane := Function.update s.lane idx { s.lane idx with actions := rest } }

def ssdStep (s : System) (idx : SegIdx) : Option System :=
  match (s.lane idx).ssd with
  | .poll =>
      match (s.lane idx).ssdQueue with
      | [] => none
      | task :: rest =>
          some (s.setLane idx { s.lane idx with ssdQueue := rest, ssd := .execute task })
  | .execute task =>
      some { s with
        m := s.m.ssdTaskStage idx task
        lane := Function.update s.lane idx { s.lane idx with ssd := .staged task } }
  | .staged task =>
      some { s with
        m := s.m.ssdTaskComplete idx task
        lane := Function.update s.lane idx { s.lane idx with ssd := .poll } }

/-- One step of one thread. -/
def step (capacity : Nat) (s : System) : Thread → Option System
  | .scheduler => s.schedulerStep capacity
  | .nvm idx => s.nvmStep capacity idx
  | .ssd idx => s.ssdStep idx

/-- The nvm_worker finds its segment full, migrates it, and goes on with its write. -/
def migrateStep (s : System) (idx : SegIdx) (sched : List (Fin MIGRATE_THREAD_NUM)) :
    Option System :=
  match (s.lane idx).actions, (s.lane idx).bufferQueue with
  | [], task :: rest =>
      match nvmWorkerSsdTask s.m.md task idx with
      | .full =>
          (mixMigrateSegment s.m idx sched).bind fun m =>
            { s with m := m }.begin idx rest (redirectWriteAfterMigration m.md task idx).counted
      | _ => none
  | _, _ => none

end System

end Mixdk
