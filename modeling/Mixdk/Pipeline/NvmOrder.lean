/-
# Pipeline.NvmOrder -- NVM tasks keep their order

With requests for the NVM region only, a submit queue, the scheduler's hand, one NVM queue
and its nvm_worker form one line: what was posted to submit queue `i` is what nvm_worker `i`
is done with, what it has in hand, and what waits for it, in this order (`NvmOnly.fifo`).
The buffer queues and the SSD side stay empty, so a worker does nothing but take, copy, count
and finish (`WorkerCase`).
-/
import Mixdk.Pipeline.Batch

namespace Mixdk

open Transition

set_option autoImplicit false

/-! ## Requests for the NVM region -/

def Request.Nvm : Request → Prop
  | .read _ len offset flags _ _ | .write _ len offset flags _ =>
      flags &&& (MIX_READ ||| MIX_WRITE ||| MIX_CLEAR) = 0 ∧ offset + len < SCHEDULER_THRESHOLD

/-- The task a request of submit queue `i` becomes. -/
def nvmTask (i : Nat) (request : Request) : IoTask := handleTask (request.task i)

theorem handleTask_nvm {task : IoTask} (below : task.offset + task.len < SCHEDULER_THRESHOLD) :
    handleTask task = { task with type := NVM_TASK } := if_pos below

theorem Request.Nvm.below {request : Request} (nvm : request.Nvm) (i : Nat) :
    (request.task i).offset + (request.task i).len < SCHEDULER_THRESHOLD := by
  cases request with
  | read | write => exact nvm.2

theorem Request.task_queueIdx (request : Request) (i : Nat) : (request.task i).queueIdx = i := by
  cases request <;> rfl

/-! ## The line of a queue -/

/-- The NVM tasks for queue `i` among the scheduler's posts. -/
def handTasks (i : SegIdx) (hand : List Post) : List IoTask :=
  hand.filterMap fun
    | .nvm task => if task.queueIdx = i then some task else none
    | .buffer _ _ => none

/-- The task an nvm_worker has in hand. -/
def NvmPc.tasks : NvmPc → List IoTask
  | .poll => []
  | .doing task _ | .full task | .migrating task => [task]

/-- What was posted to submit queue `i` and is not done yet. -/
def Pipeline.underway (s : Pipeline) (i : SegIdx) : List IoTask :=
  (s.station i).nvm.tasks ++ (s.station i).nvmQueue ++ handTasks i s.hand ++
    (s.submitQueue i).map handleTask

/-- An nvm_worker has an NVM task in hand or none. -/
def NvmPc.NvmOnly : NvmPc → Prop
  | .poll => True
  | .doing task deeds => task.type = NVM_TASK ∧ deeds <:+ nvmWorkerNvmTask task
  | .full _ | .migrating _ => False

structure Station.NvmOnly (station : Station) : Prop where
  bufferQueue : station.bufferQueue = []
  nvmQueue : ∀ task ∈ station.nvmQueue, task.type = NVM_TASK
  nvm : station.nvm.NvmOnly
  ssdQueue : station.ssdQueue = []
  ssd : station.ssd = .poll

structure Pipeline.NvmOnly (submitQueueNum : Nat) (s : Pipeline) : Prop where
  toPost : ∀ i, ∀ request ∈ s.toPost i, request.Nvm
  submitted : ∀ i, ∀ task ∈ s.submitQueue i, task.queueIdx = i ∧ i < submitQueueNum ∧
    task.offset + task.len < SCHEDULER_THRESHOLD
  hand : ∀ post ∈ s.hand, ∃ task, post = .nvm task ∧ task.type = NVM_TASK
  station : ∀ idx, (s.station idx).NvmOnly
  migration : s.migration = none
  /-- What was posted is done, or under way in the same order. -/
  fifo : ∀ i : SegIdx, (s.history.posted i).map (nvmTask i) = s.history.executed i ++ s.underway i

/-! ## The steps of a worker -/

/-- The deed copies a block. -/
def Deed.isCopy : Deed → Bool
  | .nvmRead _ _ | .nvmWrite _ _ => true
  | .act _ => false

/-- A worker copies, and counts what it copied. -/
theorem nvmWorkerNvmTask_deeds {task : IoTask} {a : Action}
    (member : .act a ∈ nvmWorkerNvmTask task) : (Deed.act a).Counts := by
  unfold nvmWorkerNvmTask at member
  split at member
  next =>
    have last : a = .addRet task.ret task.len := by simpa using member
    exact last ▸ trivial
  next =>
    split at member
    next =>
      have last : a = .nvmWriteBlockCompleted task.len := by simpa using member
      exact last ▸ trivial
    next => cases member

namespace Pipeline

/-- The steps of an nvm_worker that has NVM tasks only. -/
inductive WorkerCase (s : Pipeline) (idx : SegIdx) : Pipeline → Prop
  | turn (odd : Bool) : WorkerCase s idx (s.setStation idx { s.station idx with odd := odd })
  | take {task : IoTask} {rest : List IoTask} (poll : (s.station idx).nvm = .poll)
      (queue : (s.station idx).nvmQueue = task :: rest) :
      WorkerCase s idx (s.setStation idx
        { s.station idx with
          nvmQueue := rest
          odd := false
          nvm := .doing task (nvmWorkerNvmTask task) })
  | count {task : IoTask} {a : Action} {rest : List Deed} (counts : (Deed.act a).Counts)
      (doing : (s.station idx).nvm = .doing task (.act a :: rest)) :
      WorkerCase s idx
        { s.setStation idx { s.station idx with nvm := .doing task rest } with m := s.m.perform a }
  | read {task : IoTask} {dst block : Nat} {rest : List Deed}
      (doing : (s.station idx).nvm = .doing task (.nvmRead dst block :: rest)) :
      WorkerCase s idx
        { s.setStation idx { s.station idx with nvm := .doing task rest } with
          m := { s.m with mem := s.m.mem.storeBlocks dst 1 fun _ => s.region block }
          history := { s.history with
            copied := s.history.copied ++ [(task.ret, dst)]
            nvmLog := s.history.nvmLog ++ [.loaded idx block (s.region block)] } }
  | write {task : IoTask} {src block : Nat} {rest : List Deed}
      (doing : (s.station idx).nvm = .doing task (.nvmWrite src block :: rest)) :
      WorkerCase s idx
        { s.setStation idx { s.station idx with nvm := .doing task rest } with
          region := Function.update s.region block (s.m.mem.load src)
          history := { s.history with
            stored := s.history.stored ++ [src]
            nvmLog := s.history.nvmLog ++ [.stored idx block (s.m.mem.load src)] } }
  | finish {task : IoTask} (doing : (s.station idx).nvm = .doing task []) :
      WorkerCase s idx
        { s.setStation idx { s.station idx with nvm := .poll } with
          history := { s.history with
            executed :=
              Function.update s.history.executed idx (s.history.executed idx ++ [task]) } }

namespace NvmOnly

variable {submitQueueNum : Nat} {s t : Pipeline} {idx : SegIdx}

theorem takes (only : s.NvmOnly submitQueueNum) {task : IoTask} {station : Station}
    (takes : Takes (s.station idx) task station) : ∃ rest,
      (s.station idx).nvmQueue = task :: rest ∧ task.type = NVM_TASK ∧
        station = { s.station idx with nvmQueue := rest, odd := false } := by
  cases takes with
  | nvm odd queue =>
      exact ⟨_, queue, (only.station idx).nvmQueue task (queue ▸ List.mem_cons_self), rfl⟩
  | buffer even queue =>
      rw [(only.station idx).bufferQueue] at queue
      cases queue

theorem doing (only : s.NvmOnly submitQueueNum) {task : IoTask} {deeds : List Deed}
    (doing : (s.station idx).nvm = .doing task deeds) :
    task.type = NVM_TASK ∧ deeds <:+ nvmWorkerNvmTask task := by
  have here := (only.station idx).nvm
  rw [doing] at here
  exact here

theorem counts (only : s.NvmOnly submitQueueNum) {task : IoTask} {a : Action} {rest : List Deed}
    (doing : (s.station idx).nvm = .doing task (.act a :: rest)) : (Deed.act a).Counts :=
  nvmWorkerNvmTask_deeds ((only.doing doing).2.subset List.mem_cons_self)

theorem worker_cases (only : s.NvmOnly submitQueueNum) (step : NvmStep s idx t) :
    WorkerCase s idx t := by
  have ssd : SSD_TASK ≠ NVM_TASK := by decide
  have here := (only.station idx).nvm
  cases step with
  | turn _ odd => exact .turn odd
  | nvmTask poll takes =>
      obtain ⟨rest, queue, -, rfl⟩ := only.takes takes
      exact .take poll queue
  | ssdTask _ takes type | full _ takes type =>
      obtain ⟨-, -, nvm, -⟩ := only.takes takes
      exact absurd (type.symm.trans nvm) ssd
  | noTask _ takes notNvm =>
      obtain ⟨-, -, nvm, -⟩ := only.takes takes
      exact absurd nvm notNvm
  | postSsd doing => exact (only.counts doing).elim
  | @act _ a _ _ doing =>
      have counts := only.counts doing
      cases a with
      | addRet | nvmWriteBlockCompleted => exact .count counts doing
      | postTaskToSsd | readFromBuffer | writeToBuffer | bufferClear => exact counts.elim
  | nvmRead doing => exact .read doing
  | nvmWrite doing => exact .write doing
  | finish doing =>
      unfold finish
      rw [if_pos (only.doing doing).1]
      exact .finish doing
  | beginMigration full =>
      rw [full] at here
      exact here.elim
  | endMigration migrating =>
      rw [migrating] at here
      exact here.elim

/-- The ssd_workers have nothing to do. -/
theorem no_ssd (only : s.NvmOnly submitQueueNum) : ¬ SsdStep s idx t := by
  have here := only.station idx
  intro step
  cases step with
  | take _ queue =>
      rw [here.ssdQueue] at queue
      cases queue
  | stage phase | move phase | count phase =>
      rw [here.ssd] at phase
      cases phase

/-! ## The invariant -/

theorem stations (only : s.NvmOnly submitQueueNum) {station : Station} (here : station.NvmOnly)
    (j : SegIdx) : (Function.update s.station idx station j).NvmOnly :=
  (Function.forall_update_iff s.station fun _ st => st.NvmOnly).2
    ⟨here, fun j _ => only.station j⟩ j

/-- A step of a worker moves a task along its own line. -/
theorem line (only : s.NvmOnly submitQueueNum) (idx : SegIdx)
    (posted : t.history.posted = s.history.posted)
    (submitted : t.submitQueue = s.submitQueue) (hand : t.hand = s.hand)
    (others : ∀ j, j ≠ idx → t.station j = s.station j ∧
      t.history.executed j = s.history.executed j)
    (moved : t.history.executed idx ++ (t.station idx).nvm.tasks ++ (t.station idx).nvmQueue =
      s.history.executed idx ++ (s.station idx).nvm.tasks ++ (s.station idx).nvmQueue)
    (i : SegIdx) :
    (t.history.posted i).map (nvmTask i) = t.history.executed i ++ t.underway i := by
  rw [posted, only.fifo i]
  unfold underway
  rw [submitted, hand]
  by_cases here : i = idx
  · subst here
    simp only [← List.append_assoc] at moved ⊢
    rw [moved]
  · obtain ⟨station, executed⟩ := others i here
    rw [station, executed]

theorem rest (only : s.NvmOnly submitQueueNum) {task : IoTask} {deed : Deed} {rest : List Deed}
    (doing : (s.station idx).nvm = .doing task (deed :: rest)) :
    (NvmPc.doing task rest).NvmOnly := by
  obtain ⟨type, suffix_⟩ := only.doing doing
  exact ⟨type, (List.suffix_cons deed rest).trans suffix_⟩

theorem worker (only : s.NvmOnly submitQueueNum) (step : WorkerCase s idx t) :
    t.NvmOnly submitQueueNum := by
  have here := only.station idx
  cases step with
  | turn odd =>
      refine
        { only with
          station := only.stations { here with }
          fifo := only.line idx rfl rfl rfl ?_ ?_ }
      · exact fun j other => ⟨Function.update_of_ne other .., rfl⟩
      · simp [setStation]
  | take poll queue =>
      obtain ⟨type, rest⟩ := List.forall_mem_cons.1 (queue ▸ here.nvmQueue)
      refine
        { only with
          station := only.stations { here with
            nvmQueue := rest
            nvm := ⟨type, List.suffix_refl _⟩ }
          fifo := only.line idx rfl rfl rfl ?_ ?_ }
      · exact fun j other => ⟨Function.update_of_ne other .., rfl⟩
      · simp [setStation, poll, queue, NvmPc.tasks]
  | count _ doing | read doing | write doing =>
      refine
        { only with
          station := only.stations { here with nvm := only.rest doing }
          fifo := only.line idx rfl rfl rfl ?_ ?_ }
      · exact fun j other => ⟨Function.update_of_ne other .., rfl⟩
      · simp [setStation, doing, NvmPc.tasks]
  | finish doing =>
      refine
        { only with
          station := only.stations { here with nvm := trivial }
          fifo := only.line idx rfl rfl rfl ?_ ?_ }
      · exact fun j other => ⟨Function.update_of_ne other .., Function.update_of_ne other ..⟩
      · simp [setStation, doing, NvmPc.tasks]

/-- A post or a poll moves a task along the line of its queue. -/
theorem front (only : s.NvmOnly submitQueueNum) {turn : Turn}
    (step : FrontStep submitQueueNum s turn t) : t.NvmOnly submitQueueNum := by
  cases step with
  | @post i request rest next queue =>
      have waiting := only.toPost i
      rw [next] at waiting
      obtain ⟨first, rest⟩ := List.forall_mem_cons.1 waiting
      refine
        { only with
          toPost := (Function.forall_update_iff s.toPost fun _ list => ∀ r ∈ list, r.Nvm).2
            ⟨rest, fun j _ => only.toPost j⟩
          submitted := (Function.forall_update_iff s.submitQueue fun j list => ∀ task ∈ list,
              task.queueIdx = j ∧ j < submitQueueNum ∧
                task.offset + task.len < SCHEDULER_THRESHOLD).2
            ⟨List.forall_mem_append.2 ⟨only.submitted i, List.forall_mem_singleton.2
              ⟨request.task_queueIdx i, queue, first.below i⟩⟩, fun j _ => only.submitted j⟩
          fifo := fun j => ?_ }
      have before := only.fifo j
      by_cases here : (j : Nat) = i
      · subst here
        simp only [underway, Function.update_self, List.map_append, before, List.append_assoc]
        rfl
      · simpa only [underway, Function.update_of_ne here] using before
  | free | skip => exact { only with }
  | @schedule task rest hand queue =>
      have waiting := only.submitted s.idx
      rw [queue] at waiting
      obtain ⟨⟨mine, inside, below⟩, rest⟩ := List.forall_mem_cons.1 waiting
      have posts : doSchedule (handleTask task) = [.nvm (handleTask task)] := by
        rw [handleTask_nvm below, doSchedule_nvm rfl]
      have idx_eq : (handleTask task).queueIdx = s.idx := by
        rw [handleTask_nvm below, ← mine]
      refine
        { only with
          submitted := (Function.forall_update_iff s.submitQueue fun j list => ∀ task ∈ list,
              task.queueIdx = j ∧ j < submitQueueNum ∧
                task.offset + task.len < SCHEDULER_THRESHOLD).2
            ⟨rest, fun j _ => only.submitted j⟩
          hand := ?_
          fifo := fun j => ?_ }
      · rw [posts]
        exact List.forall_mem_singleton.2 ⟨_, rfl, by rw [handleTask_nvm below]⟩
      · have before := only.fifo j
        unfold underway at before
        rw [hand] at before
        simp only [underway, posts]
        by_cases here : (j : Nat) = s.idx
        · rw [before, here, Function.update_self, queue]
          simp [handTasks, idx_eq, here]
        · rw [before, Function.update_of_ne here]
          simp [handTasks, idx_eq, Ne.symm here]
  | @toNvm task rest hand inside =>
      have posts := only.hand
      rw [hand] at posts
      obtain ⟨⟨task', same, type⟩, rest⟩ := List.forall_mem_cons.1 posts
      cases same
      have here := only.station ⟨task.queueIdx, inside⟩
      refine
        { only with
          hand := rest
          station := only.stations { here with
            nvmQueue := List.forall_mem_append.2
              ⟨here.nvmQueue, List.forall_mem_singleton.2 type⟩ }
          fifo := fun j => ?_ }
      have before := only.fifo j
      unfold underway at before ⊢
      rw [hand] at before
      by_cases mine : j = ⟨task.queueIdx, inside⟩
      · subst mine
        refine before.trans ?_
        simp [setStation, handTasks]
      · have other : task.queueIdx ≠ j := fun same => mine (Fin.ext same.symm)
        refine before.trans ?_
        simp [setStation, handTasks, Function.update_of_ne mine, other]
  | toBuffer hand =>
      have here := only.hand
      rw [hand] at here
      obtain ⟨_, same, -⟩ := here _ List.mem_cons_self
      cases same

theorem step (only : s.NvmOnly submitQueueNum) {turn : Turn}
    (cases_ : StepCases submitQueueNum s turn t) : t.NvmOnly submitQueueNum := by
  cases cases_ with
  | front step => exact only.front step
  | nvm idx _ step => exact only.worker (only.worker_cases step)
  | ssd idx _ step => exact absurd step only.no_ssd
  | migrate _ _ migration =>
      rw [only.migration] at migration
      cases migration

end NvmOnly

end Pipeline

end Mixdk
