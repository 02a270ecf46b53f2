/-
# Handshake.QueueEmpty -- what queue_empty tells a migration

`mix_migrate_segment` waits until `mix_ssd_queue_is_empty(idx)` holds, so that no
write queued earlier can land on top of what the migration writes.  The flag it
reads is set by `ssd_worker` alone: to false after a dequeue that returned a
task, to true after one that found the queue empty.  `mix_post_task_to_ssd` does
not touch it.

`State` is the pair of workers of one segment with the queue between them.  A
step is one access to the shared state: a post, a poll, a write of the flag, one
half of a task, a test of the flag.  The lists `posted`, `executed` and
`sinceEmpty` are histories, which no step reads.

The flag is right about the moment it was computed, not about now.  When the wait
exits, everything posted has been executed exactly if nothing was posted since
the last poll that found the queue empty (`drained_at_exit_iff`).
-/
import Mixdk.Core.Machine
import Mixdk.Lib.Transition

namespace Mixdk.QueueEmpty

open Transition

set_option autoImplicit false

/-- Where `ssd_worker` is in its loop. -/
inductive SsdPc
  /-- Before `mix_dequeue`. -/
  | poll
  /-- `mix_dequeue` returned a task; before `queue_empty[idx] = false`. -/
  | dequeued (task : IoTask)
  /-- `mix_dequeue` returned 0; before `queue_empty[idx] = true`. -/
  | foundEmpty
  /-- Before the first half of the task. -/
  | execute (task : IoTask)
  /-- Before its second half. -/
  | staged (task : IoTask)
deriving DecidableEq

/-- Where `nvm_worker` is: between two steps of its loop, in the wait of
`mix_migrate_segment`, or past it. -/
inductive NvmPc
  | running
  | waiting
  | migrating
deriving DecidableEq

structure State where
  m : Machine
  queue : List IoTask
  /-- `queue_empty[idx]` -/
  queueEmpty : Bool
  nvm : NvmPc
  ssd : SsdPc
  /-- The tasks posted so far. -/
  posted : List IoTask
  /-- The tasks fully executed so far. -/
  executed : List IoTask
  /-- The tasks posted since the last poll that found the queue empty. -/
  sinceEmpty : List IoTask

/-- At start-up `queue_empty` is zero. -/
def init (m : Machine) : State :=
  { m := m, queue := [], queueEmpty := false, nvm := .running, ssd := .poll, posted := [],
    executed := [], sinceEmpty := [] }

inductive Label
  /-- `mix_post_task_to_ssd(task, idx)` -/
  | post (task : IoTask)
  /-- `nvm_worker` enters `mix_migrate_segment`. -/
  | enter
  /-- One turn of `while(!mix_ssd_queue_is_empty(idx))`. -/
  | test
  /-- `mix_migrate_segment` returns. -/
  | leave
  /-- `mix_dequeue` of `get_task_from_ssd_queue` -/
  | poll
  /-- The write to `queue_empty[idx]` -/
  | setFlag
  /-- The first half of the task. -/
  | stage
  /-- The second half of the task. -/
  | complete
deriving DecidableEq

/-- One access to the shared state by one of the two workers of segment `idx`.  A post
waits while the queue is full. -/
def step (capacity : Nat) (idx : SegIdx) (s : State) : Label → Option State
  | .post task =>
      if s.nvm = .running ∧ s.queue.length < capacity then
        some { s with
          queue := s.queue ++ [task]
          posted := s.posted ++ [task]
          sinceEmpty := s.sinceEmpty ++ [task] }
      else none
  | .enter => if s.nvm = .running then some { s with nvm := .waiting } else none
  | .test =>
      if s.nvm = .waiting then
        some { s with nvm := if s.queueEmpty then .migrating else .waiting }
      else none
  | .leave => if s.nvm = .migrating then some { s with nvm := .running } else none
  | .poll =>
      if s.ssd = .poll then
        match s.queue with
        | [] => some { s with ssd := .foundEmpty, sinceEmpty := [] }
        | task :: rest => some { s with ssd := .dequeued task, queue := rest }
      else none
  | .setFlag =>
      match s.ssd with
      | .dequeued task => some { s with queueEmpty := false, ssd := .execute task }
      | .foundEmpty => some { s with queueEmpty := true, ssd := .poll }
      | _ => none
  | .stage =>
      match s.ssd with
      | .execute task => some { s with m := s.m.ssdTaskStage idx task, ssd := .staged task }
      | _ => none
  | .complete =>
      match s.ssd with
      | .staged task =>
          some { s with
            m := s.m.ssdTaskComplete idx task
            ssd := .poll
            executed := s.executed ++ [task] }
      | _ => none

section

variable {capacity : Nat} {idx : SegIdx} {s : State} {task : IoTask}

/-! What `ssd_worker` does where it is. -/

theorem poll_empty (poll : s.ssd = .poll) (empty : s.queue = []) :
    step capacity idx s .poll = some { s with ssd := .foundEmpty, sinceEmpty := [] } := by
  simp only [step, poll, empty, if_true]

theorem poll_task {rest : List IoTask} (poll : s.ssd = .poll) (queue : s.queue = task :: rest) :
    step capacity idx s .poll = some { s with ssd := .dequeued task, queue := rest } := by
  simp only [step, poll, queue, if_true]

theorem setFlag_empty (found : s.ssd = .foundEmpty) :
    step capacity idx s .setFlag = some { s with queueEmpty := true, ssd := .poll } := by
  simp only [step, found]

theorem setFlag_task (dequeued : s.ssd = .dequeued task) :
    step capacity idx s .setFlag = some { s with queueEmpty := false, ssd := .execute task } := by
  simp only [step, dequeued]

theorem stage_task (execute : s.ssd = .execute task) : step capacity idx s .stage =
    some { s with m := s.m.ssdTaskStage idx task, ssd := .staged task } := by
  simp only [step, execute]

theorem complete_task (staged : s.ssd = .staged task) : step capacity idx s .complete =
    some { s with
      m := s.m.ssdTaskComplete idx task
      ssd := .poll
      executed := s.executed ++ [task] } := by
  simp only [step, staged]

end

/-- The task `ssd_worker` has dequeued and not finished. -/
def SsdPc.inHand : SsdPc → List IoTask
  | .dequeued task | .execute task | .staged task => [task]
  | .poll | .foundEmpty => []

/-- `ssd_worker` has lowered the flag for the task in hand. -/
def SsdPc.lowered : SsdPc → Prop
  | .execute _ | .staged _ => True
  | _ => False

/-- What the machine has become when the tasks in `executed` and the first half of a staged
one have taken effect. -/
def SsdPc.effect (idx : SegIdx) (m : Machine) : SsdPc → Machine
  | .staged task => m.ssdTaskStage idx task
  | _ => m

/-- The queue is FIFO, the flag is down while a task runs, and while it is up, or about to
go up, every task not yet executed was posted after the poll it stems from. -/
structure Inv (idx : SegIdx) (m : Machine) (s : State) : Prop where
  fifo : s.posted = s.executed ++ (s.ssd.inHand ++ s.queue)
  lowered : s.ssd.lowered → s.queueEmpty = false
  since : s.queueEmpty = true ∨ s.ssd = .foundEmpty →
    s.sinceEmpty = s.ssd.inHand ++ s.queue
  effect : s.m = s.ssd.effect idx (s.executed.foldl (fun m task => m.ssdWorkerTask idx task) m)

section

variable {capacity : Nat} {idx : SegIdx} {m : Machine} {s t : State} {label : Label}

theorem inv_init (idx : SegIdx) (m : Machine) : Inv idx m (init m) where
  fifo := rfl
  lowered := fun low => low.elim
  since := fun _ => rfl
  effect := rfl

/-! ## Steps -/

theorem Inv.post (inv : Inv idx m s) {task : IoTask}
    (stepped : step capacity idx s (.post task) = some t) : Inv idx m t := by
  simp only [step] at stepped
  split at stepped
  · cases stepped
    refine ⟨?_, inv.lowered, ?_, inv.effect⟩
    · simp only [inv.fifo, List.append_assoc]
    · intro raised
      simp only [inv.since raised, List.append_assoc]
  · cases stepped

/-- The steps of `nvm_worker` around a migration change its own position alone. -/
theorem Inv.nvm (inv : Inv idx m s) (pc : NvmPc) : Inv idx m { s with nvm := pc } :=
  ⟨inv.fifo, inv.lowered, inv.since, inv.effect⟩

theorem Inv.poll (inv : Inv idx m s) (stepped : step capacity idx s .poll = some t) :
    Inv idx m t := by
  simp only [step] at stepped
  split at stepped
  · rename_i polling
    have fifo := inv.fifo
    have effect := inv.effect
    have since := inv.since
    rw [polling] at fifo effect since
    cases waiting : s.queue with
    | nil =>
        rw [waiting] at stepped fifo
        cases stepped
        refine ⟨?_, fun low => low.elim, ?_, effect⟩
        · simpa only [SsdPc.inHand, waiting] using fifo
        · intro _
          simp only [SsdPc.inHand, List.append_nil]
    | cons task rest =>
        rw [waiting] at stepped fifo since
        cases stepped
        refine ⟨fifo, fun low => low.elim, ?_, effect⟩
        intro raised
        rcases raised with up | empty
        · exact since (.inl up)
        · cases empty
  · cases stepped

theorem Inv.setFlag (inv : Inv idx m s) (stepped : step capacity idx s .setFlag = some t) :
    Inv idx m t := by
  have fifo := inv.fifo
  have effect := inv.effect
  have since := inv.since
  simp only [step] at stepped
  split at stepped
  · rename_i task polled
    rw [polled] at fifo effect
    cases stepped
    refine ⟨fifo, fun _ => rfl, ?_, effect⟩
    intro raised
    rcases raised with up | empty
    · cases up
    · cases empty
  · rename_i polled
    rw [polled] at fifo effect since
    cases stepped
    refine ⟨fifo, fun low => low.elim, ?_, effect⟩
    intro _
    exact since (.inr rfl)
  · cases stepped

theorem Inv.stage (inv : Inv idx m s) (stepped : step capacity idx s .stage = some t) :
    Inv idx m t := by
  have fifo := inv.fifo
  have effect := inv.effect
  have since := inv.since
  have lowered := inv.lowered
  simp only [step] at stepped
  split at stepped
  · rename_i task running
    rw [running] at fifo effect lowered since
    cases stepped
    refine ⟨fifo, fun _ => lowered trivial, ?_, ?_⟩
    · intro raised
      rcases raised with up | empty
      · exact since (.inl up)
      · cases empty
    · simp only [effect, SsdPc.effect]
  · cases stepped

theorem Inv.complete (inv : Inv idx m s) (stepped : step capacity idx s .complete = some t) :
    Inv idx m t := by
  have fifo := inv.fifo
  have effect := inv.effect
  have lowered := inv.lowered
  simp only [step] at stepped
  split at stepped
  · rename_i task running
    rw [running] at fifo effect lowered
    cases stepped
    refine ⟨?_, fun low => low.elim, ?_, ?_⟩
    · simpa only [SsdPc.inHand, List.append_assoc, List.nil_append] using fifo
    · intro raised
      rcases raised with up | empty
      · rw [lowered trivial] at up
        cases up
      · cases empty
    · simp only [effect, SsdPc.effect, List.foldl_append, List.foldl_cons, List.foldl_nil]
      apply Machine.ssdTaskComplete_stage
  · cases stepped

theorem Inv.step (inv : Inv idx m s) (stepped : step capacity idx s label = some t) :
    Inv idx m t := by
  cases label with
  | post task => exact inv.post stepped
  | poll => exact inv.poll stepped
  | setFlag => exact inv.setFlag stepped
  | stage => exact inv.stage stepped
  | complete => exact inv.complete stepped
  | enter | test | leave =>
      simp only [QueueEmpty.step] at stepped
      split at stepped
      · cases stepped
        apply inv.nvm
      · cases stepped

/-- Every interleaving keeps the invariant. -/
theorem Inv.exec {labels : List Label}
    (ran : exec (QueueEmpty.step capacity idx) (init m) labels = some s) :
    Inv idx m s :=
  exec_invariant (fun _ _ _ inv stepped => inv.step stepped) ran (inv_init idx m)

/-! ## The exit of the wait -/

/-- The wait of `mix_migrate_segment` exits: the test finds the flag up. -/
def Exits (s : State) : Prop := s.nvm = .waiting ∧ s.queueEmpty = true

theorem exits_iff : Exits s ↔ ∃ t, step capacity idx s .test = some t ∧ t.nvm = .migrating := by
  simp only [Exits, step]
  by_cases waiting : s.nvm = .waiting
  · cases s.queueEmpty <;> simp [waiting]
  · simp [waiting]

/-- What has not been executed when the flag is up was posted since the poll it stems from. -/
theorem Inv.unexecuted (inv : Inv idx m s) (up : s.queueEmpty = true) :
    s.posted = s.executed ++ s.sinceEmpty := by
  rw [inv.since (.inl up)]
  exact inv.fifo

/-- **When the wait exits, in whatever interleaving, every task posted has been executed
exactly if none was posted since the last poll that found the queue empty.** -/
theorem drained_at_exit_iff {labels : List Label}
    (ran : exec (step capacity idx) (init m) labels = some s) (exits : Exits s) :
    s.executed = s.posted ↔ s.sinceEmpty = [] := by
  have inv : Inv idx m s := Inv.exec ran
  rw [inv.unexecuted exits.2]
  constructor
  · intro all
    exact List.append_right_eq_self.1 all.symm
  · intro none
    rw [none, List.append_nil]

/-! ## Through the migration -/

/-- A test that finds the flag up comes before any post since the poll that raised it. -/
def ExitGuard (s : State) : Label → Prop
  | .test => s.queueEmpty = true → s.sinceEmpty = []
  | _ => True

/-- While the segment migrates, nothing is queued or in hand. -/
def Quiet (s : State) : Prop := s.nvm = .migrating → s.ssd.inHand = [] ∧ s.queue = []

theorem Quiet.step (inv : Inv idx m s) (quiet : Quiet s) (guarded : ExitGuard s label)
    (stepped : step capacity idx s label = some t) : Quiet t := by
  intro inside
  cases label with
  | test =>
      simp only [QueueEmpty.step] at stepped
      split at stepped
      · cases stepped
        cases up : s.queueEmpty with
        | false => simp only [up] at inside; cases inside
        | true =>
            have since := inv.since (.inl up)
            rw [guarded up] at since
            exact List.append_eq_nil_iff.1 since.symm
      · cases stepped
  | post task =>
      simp only [QueueEmpty.step] at stepped
      split at stepped
      · rename_i enabled
        cases stepped
        rw [enabled.1] at inside
        cases inside
      · cases stepped
  | enter | leave =>
      simp only [QueueEmpty.step] at stepped
      split at stepped
      · cases stepped
        cases inside
      · cases stepped
  | poll =>
      simp only [QueueEmpty.step] at stepped
      split at stepped
      · cases waiting : s.queue with
        | nil =>
            rw [waiting] at stepped
            cases stepped
            exact ⟨rfl, rfl⟩
        | cons task rest =>
            rw [waiting] at stepped
            cases stepped
            rw [(quiet inside).2] at waiting
            cases waiting
      · cases stepped
  | setFlag | stage | complete =>
      simp only [QueueEmpty.step] at stepped
      split at stepped
      all_goals cases stepped
      all_goals
        rename_i polled
        have still := quiet inside
        rw [polled] at still
        first
        | exact ⟨rfl, still.2⟩
        | cases still.1

/-- **In a run whose tests meet the guard, all tasks have taken effect while the segment
migrates, and `ssd_worker` has nothing left to do.** -/
theorem drained_while_migrating {labels : List Label}
    (run : Run (step capacity idx) ExitGuard (init m) labels s) (inside : s.nvm = .migrating) :
    s.executed = s.posted ∧ s.queue = [] ∧
      s.m = s.posted.foldl (fun m task => m.ssdWorkerTask idx task) m := by
  have both : Inv idx m s ∧ Quiet s := by
    refine run.invariant (I := fun s => Inv idx m s ∧ Quiet s) ?_ ⟨inv_init idx m, ?_⟩
    · intro s label t both guarded stepped
      exact ⟨both.1.step stepped, both.2.step both.1 guarded stepped⟩
    · intro migrating
      cases migrating
  obtain ⟨inv, quiet⟩ := both
  obtain ⟨hand, queue⟩ := quiet inside
  have all : s.posted = s.executed := by
    rw [inv.fifo, hand, queue, List.append_nil, List.append_nil]
  refine ⟨all.symm, queue, ?_⟩
  rw [all, inv.effect]
  cases at_ : s.ssd with
  | staged task => rw [at_] at hand; cases hand
  | poll | dequeued task | foundEmpty | execute task => rfl

end

/-! ## An early exit -/

/-- A write of two blocks. -/
def lateWrite : IoTask :=
  { buf := 0, len := 2, offset := 0, ret := 0, opcode := MIX_WRITE, type := SSD_TASK,
    queueIdx := 0 }

/-- An empty buffer on a blank SSD. -/
def blankMachine : Machine :=
  .blank (mixMetadataInit BUFFER_BLOCK_NUM) { data := fun _ _ => 0, metas := fun _ => ⟨0, 0, 0, 0⟩ }

/-- The queue is polled while it is empty, then a write is posted and the segment migrates. -/
def pollThenPost : List Label := [.poll, .setFlag, .post lateWrite, .enter]

/-- The wait exits with the write still in the queue. -/
theorem pollThenPost_exits_early : ∃ s, exec (step 1 0) (init blankMachine) pollThenPost = some s ∧
    Exits s ∧ s.executed ≠ s.posted := by
  refine ⟨_, rfl, ⟨rfl, rfl⟩, ?_⟩
  decide

/-- The write is executed, and the queue polled again, before the test. -/
def postAndDrain : List Label :=
  [.post lateWrite, .poll, .setFlag, .stage, .complete, .enter, .poll, .setFlag]

/-- The wait then exits with nothing left. -/
theorem postAndDrain_drained : ∃ s,
    exec (step 1 0) (init blankMachine) postAndDrain = some s ∧
    Exits s ∧ s.executed = s.posted := by
  have run : (exec (step 1 0) (init blankMachine) postAndDrain).map
      (fun s => (s.nvm, s.queueEmpty, s.sinceEmpty)) = some (.waiting, true, []) := by decide
  obtain ⟨s, ran, there⟩ := Option.map_eq_some_iff.1 run
  simp only [Prod.mk.injEq] at there
  obtain ⟨waiting, up, since⟩ := there
  exact ⟨s, ran, ⟨waiting, up⟩, (drained_at_exit_iff ran ⟨waiting, up⟩).2 since⟩

end Mixdk.QueueEmpty
