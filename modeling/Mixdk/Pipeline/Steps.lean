/-
# Pipeline.Steps -- what a step of the pipeline can do

`step_cases` takes `Pipeline.step` apart once and for all: which guard each step has and
which state it leads to, with the scheduler and the callers in `FrontStep`, the nvm_workers
in `NvmStep` and the ssd_workers in `SsdStep`.  Every invariant is proved by these cases.
-/
import Mixdk.Pipeline.System

namespace Mixdk

set_option autoImplicit false

namespace Pipeline

/-- The nvm_worker takes `task` off the queue it is at, and turns to the other one. -/
inductive Takes (station : Station) (task : IoTask) : Station → Prop
  | nvm {rest : List IoTask} (odd : station.odd = true) (queue : station.nvmQueue = task :: rest) :
      Takes station task { station with nvmQueue := rest, odd := false }
  | buffer {rest : List IoTask} (even : station.odd = false)
      (queue : station.bufferQueue = task :: rest) :
      Takes station task { station with bufferQueue := rest, odd := true }

/-- The steps of the scheduler and of the callers. -/
inductive FrontStep (submitQueueNum : Nat) (s : Pipeline) : Turn → Pipeline → Prop
  | post {i : Nat} {request : Request} {rest : List Request} (next : s.toPost i = request :: rest)
      (queue : i < submitQueueNum) :
      FrontStep submitQueueNum s (.post i)
        { s with
          toPost := Function.update s.toPost i rest
          submitQueue := Function.update s.submitQueue i (s.submitQueue i ++ [request.task i])
          history := { s.history with
            posted := Function.update s.history.posted i (s.history.posted i ++ [request]) } }
  | free {i dst len offset flags ret type : Nat}
      (posted : .read dst len offset flags ret type ∈ s.history.posted i)
      (completed : len ≤ s.m.ret ret) :
      FrontStep submitQueueNum s (.free i (.read dst len offset flags ret type))
        { s with history := { s.history with released := ret :: s.history.released } }
  | skip (hand : s.hand = []) (queue : s.submitQueue s.idx = []) :
      FrontStep submitQueueNum s .scheduler { s with idx := pollNext submitQueueNum s.idx }
  | schedule {task : IoTask} {rest : List IoTask} (hand : s.hand = [])
      (queue : s.submitQueue s.idx = task :: rest) :
      FrontStep submitQueueNum s .scheduler
        { s with
          idx := pollNext submitQueueNum s.idx
          submitQueue := Function.update s.submitQueue s.idx rest
          hand := doSchedule (handleTask task) }
  | toNvm {task : IoTask} {rest : List Post} (hand : s.hand = .nvm task :: rest)
      (inside : task.queueIdx < SEGMENT_NUM) :
      FrontStep submitQueueNum s .scheduler
        { s.setStation ⟨task.queueIdx, inside⟩
            { s.station ⟨task.queueIdx, inside⟩ with
              nvmQueue := (s.station ⟨task.queueIdx, inside⟩).nvmQueue ++ [task] } with
          hand := rest }
  | toBuffer {idx : SegIdx} {task : IoTask} {rest : List Post}
      (hand : s.hand = .buffer idx task :: rest) :
      FrontStep submitQueueNum s .scheduler
        { s.setStation idx
            { s.station idx with bufferQueue := (s.station idx).bufferQueue ++ [task] } with
          hand := rest }

/-- The steps of nvm_worker `idx`. -/
inductive NvmStep (s : Pipeline) (idx : SegIdx) : Pipeline → Prop
  | turn (poll : (s.station idx).nvm = .poll) (odd : Bool) :
      NvmStep s idx (s.setStation idx { s.station idx with odd := odd })
  | nvmTask {task : IoTask} {station : Station} (poll : (s.station idx).nvm = .poll)
      (takes : Takes (s.station idx) task station) (type : task.type = NVM_TASK) :
      NvmStep s idx (s.setStation idx { station with nvm := .doing task (nvmWorkerNvmTask task) })
  | ssdTask {task : IoTask} {station : Station} {md : Metadata} {actions : List Action} {ret : Nat}
      (poll : (s.station idx).nvm = .poll) (takes : Takes (s.station idx) task station)
      (type : task.type = SSD_TASK)
      (result : nvmWorkerSsdTask s.m.md task idx = .done md actions ret) :
      NvmStep s idx
        { s.setStation idx { station with nvm := .doing task (actions.map .act) } with
          m := { s.m with md := md } }
  | full {task : IoTask} {station : Station} (poll : (s.station idx).nvm = .poll)
      (takes : Takes (s.station idx) task station) (type : task.type = SSD_TASK)
      (result : nvmWorkerSsdTask s.m.md task idx = .full) :
      NvmStep s idx (s.setStation idx { station with nvm := .full task })
  | noTask {task : IoTask} {station : Station} (poll : (s.station idx).nvm = .poll)
      (takes : Takes (s.station idx) task station) (notNvm : task.type ≠ NVM_TASK)
      (notSsd : task.type ≠ SSD_TASK) :
      NvmStep s idx (s.setStation idx { station with nvm := .doing task [] })
  | postSsd {task posted : IoTask} {rest : List Deed}
      (doing : (s.station idx).nvm = .doing task (.act (.postTaskToSsd posted) :: rest)) :
      NvmStep s idx (s.setStation idx
        { s.station idx with
          nvm := .doing task rest
          ssdQueue := (s.station idx).ssdQueue ++ [posted] })
  | act {task : IoTask} {a : Action} {rest : List Deed} (other : ∀ posted, a ≠ .postTaskToSsd posted)
      (doing : (s.station idx).nvm = .doing task (.act a :: rest)) :
      NvmStep s idx
        { s.setStation idx { s.station idx with nvm := .doing task rest } with
          m := s.m.perform a
          history := note s.history task a }
  | nvmRead {task : IoTask} {dst block : Nat} {rest : List Deed}
      (doing : (s.station idx).nvm = .doing task (.nvmRead dst block :: rest)) :
      NvmStep s idx
        { s.setStation idx { s.station idx with nvm := .doing task rest } with
          m := { s.m with mem := s.m.mem.storeBlocks dst 1 fun _ => s.region block }
          history := { s.history with
            copied := s.history.copied ++ [(task.ret, dst)]
            nvmLog := s.history.nvmLog ++ [.loaded idx block (s.region block)] } }
  | nvmWrite {task : IoTask} {src block : Nat} {rest : List Deed}
      (doing : (s.station idx).nvm = .doing task (.nvmWrite src block :: rest)) :
      NvmStep s idx
        { s.setStation idx { s.station idx with nvm := .doing task rest } with
          region := Function.update s.region block (s.m.mem.load src)
          history := { s.history with
            stored := s.history.stored ++ [src]
            nvmLog := s.history.nvmLog ++ [.stored idx block (s.m.mem.load src)] } }
  | finish {task : IoTask} (doing : (s.station idx).nvm = .doing task []) :
      NvmStep s idx (s.finish idx task)
  | beginMigration {task : IoTask} (full : (s.station idx).nvm = .full task)
      (free : s.migration = none) :
      NvmStep s idx
        { s.setStation idx { s.station idx with nvm := .migrating task } with
          migration := some (idx, fun t => .pop t) }
  | endMigration {task : IoTask} {md : Metadata} {actions : List Action} {ret : Nat}
      (migrating : (s.station idx).nvm = .migrating task)
      (result : (redirectWriteAfterMigration (migrationEnd s.m idx).md task idx).counted =
        .done md actions ret) :
      NvmStep s idx
        { s.setStation idx { s.station idx with nvm := .doing task (actions.map .act) } with
          m := { migrationEnd s.m idx with md := md }
          migration := none }

/-- The steps of ssd_worker `idx`. -/
inductive SsdStep (s : Pipeline) (idx : SegIdx) : Pipeline → Prop
  | take {task : IoTask} {rest : List IoTask} (poll : (s.station idx).ssd = .poll)
      (queue : (s.station idx).ssdQueue = task :: rest) :
      SsdStep s idx (s.setStation idx
        { s.station idx with ssdQueue := rest, ssd := .execute task })
  | stage {task : IoTask} (execute : (s.station idx).ssd = .execute task) :
      SsdStep s idx
        { s.setStation idx { s.station idx with ssd := .staged task } with
          m := s.m.ssdTaskStage idx task }
  | move {task : IoTask} (staged : (s.station idx).ssd = .staged task) :
      SsdStep s idx
        { s.setStation idx { s.station idx with ssd := .moved task } with
          m := s.m.ssdTaskMove idx task
          history := noteSsd s.history task }
  | count {task : IoTask} (moved : (s.station idx).ssd = .moved task) :
      SsdStep s idx
        { s.setStation idx { s.station idx with ssd := .poll } with
          m := s.m.ssdTaskCount task }

/-- Everything a step can do. -/
inductive StepCases (submitQueueNum : Nat) (s : Pipeline) (turn : Turn) (t : Pipeline) : Prop
  | front (step : FrontStep submitQueueNum s turn t)
  | nvm (idx : SegIdx) (is : turn = .nvm idx) (step : NvmStep s idx t)
  | ssd (idx : SegIdx) (is : turn = .ssd idx) (step : SsdStep s idx t)
  | migrate {idx : SegIdx} {pc : Fin MIGRATE_THREAD_NUM → MigratePc}
      {next : MigrateState MIGRATE_THREAD_NUM} (thread : Fin MIGRATE_THREAD_NUM)
      (is : turn = .migrate thread) (migration : s.migration = some (idx, pc))
      (moved : Mixdk.migrateStep idx { m := s.m, pc := pc } thread = some next)
      (result : t = { s with m := next.m, migration := some (idx, next.pc) })

section

variable {submitQueueNum capacity : Nat} {s t : Pipeline} {idx : SegIdx}

theorem resume_cases {station : Station} {task : IoTask} {result : WriteResult}
    (resumed : s.resume idx station task result = some t) :
    (∃ md actions ret, result = .done md actions ret ∧
      t = { s.setStation idx { station with nvm := .doing task (actions.map .act) } with
        m := { s.m with md := md } }) ∨
    (result = .full ∧ t = s.setStation idx { station with nvm := .full task }) := by
  cases result with
  | done md actions ret => exact .inl ⟨md, actions, ret, rfl, (Option.some.inj resumed).symm⟩
  | full => exact .inr ⟨rfl, (Option.some.inj resumed).symm⟩
  | spins => cases resumed

theorem begin_cases {station : Station} {task : IoTask} (poll : (s.station idx).nvm = .poll)
    (takes : Takes (s.station idx) task station) (begun : s.begin idx station task = some t) :
    NvmStep s idx t := by
  unfold begin at begun
  split at begun
  next type =>
    cases begun
    exact .nvmTask poll takes type
  next notNvm =>
    split at begun
    next type =>
      rcases resume_cases begun with ⟨md, actions, ret, result, rfl⟩ | ⟨result, rfl⟩
      · exact .ssdTask poll takes type result
      · exact .full poll takes type result
    next notSsd =>
      cases begun
      exact .noTask poll takes notNvm notSsd

theorem pollStep_cases (poll : (s.station idx).nvm = .poll) (stepped : s.pollStep idx = some t) :
    NvmStep s idx t := by
  unfold pollStep at stepped
  dsimp only at stepped
  split at stepped
  next odd =>
    split at stepped
    next =>
      cases stepped
      exact .turn poll false
    next task rest queue => exact begin_cases poll (.nvm odd queue) stepped
  next even =>
    split at stepped
    next =>
      cases stepped
      exact .turn poll true
    next task rest queue =>
      exact begin_cases poll (.buffer (Bool.eq_false_iff.2 even) queue) stepped

/-- After a migration the write does not look whether the segment is full. -/
theorem afterMigration_ne_full (md : Metadata) (task : IoTask) (idx : SegIdx) :
    (redirectWriteAfterMigration md task idx).counted ≠ .full := by
  unfold redirectWriteAfterMigration
  split
  · nofun
  · nofun

theorem perform_cases {task : IoTask} {deed : Deed} {rest : List Deed}
    (doing : (s.station idx).nvm = .doing task (deed :: rest))
    (performed : s.perform capacity idx { s.station idx with nvm := .doing task rest } task deed =
      some t) : NvmStep s idx t := by
  cases deed with
  | nvmRead dst block =>
      cases performed
      exact .nvmRead doing
  | nvmWrite src block =>
      cases performed
      exact .nvmWrite doing
  | act a =>
      cases a with
      | postTaskToSsd posted =>
          simp only [perform] at performed
          split at performed
          · cases performed
            exact .postSsd doing
          · cases performed
      | readFromBuffer _ _ | writeToBuffer _ _ _ _ | bufferClear _ | addRet _ _
        | nvmWriteBlockCompleted _ =>
          cases performed
          exact .act (fun _ => by rintro ⟨⟩) doing

theorem nvmStep_cases (stepped : s.nvmStep capacity idx = some t) : NvmStep s idx t := by
  unfold nvmStep at stepped
  split at stepped
  next poll => exact pollStep_cases poll stepped
  next task doing =>
    cases stepped
    exact .finish doing
  next task deed rest doing => exact perform_cases doing stepped
  next task full =>
    unfold beginMigration at stepped
    split at stepped
    next free =>
      cases stepped
      exact .beginMigration full free
    next => cases stepped
  next task migrating =>
    obtain ⟨⟨i, pc⟩, -, stepped⟩ := Option.bind_eq_some_iff.1 stepped
    dsimp only at stepped
    split at stepped
    next =>
      rcases resume_cases stepped with ⟨md, actions, ret, result, rfl⟩ | ⟨result, -⟩
      · exact .endMigration migrating result
      · exact absurd result (afterMigration_ne_full _ _ _)
    next => cases stepped

theorem ssdStep_cases (stepped : s.ssdStep idx = some t) : SsdStep s idx t := by
  unfold ssdStep at stepped
  dsimp only at stepped
  split at stepped
  next poll =>
    split at stepped
    next => cases stepped
    next task rest queue =>
      cases stepped
      exact .take poll queue
  next task execute =>
    cases stepped
    exact .stage execute
  next task staged =>
    cases stepped
    exact .move staged
  next task moved =>
    cases stepped
    exact .count moved

theorem schedulerStep_cases (stepped : s.schedulerStep submitQueueNum capacity = some t) :
    FrontStep submitQueueNum s .scheduler t := by
  unfold schedulerStep at stepped
  split at stepped
  next hand =>
    dsimp only at stepped
    split at stepped
    next queue =>
      cases stepped
      exact .skip hand queue
    next task rest queue =>
      cases stepped
      exact .schedule hand queue
  next task rest hand =>
    split at stepped
    next inside =>
      dsimp only at stepped
      split at stepped
      · cases stepped
        exact .toNvm hand inside
      · cases stepped
    next => cases stepped
  next idx task rest hand =>
    split at stepped
    · cases stepped
      exact .toBuffer hand
    · cases stepped

/-- **A step is one of these.** -/
theorem step_cases {turn : Turn} (stepped : s.step submitQueueNum capacity turn = some t) :
    StepCases submitQueueNum s turn t := by
  cases turn with
  | post i =>
      simp only [step, postStep] at stepped
      split at stepped
      next => cases stepped
      next request rest next =>
        split at stepped
        next room =>
          cases stepped
          exact .front (.post next room.1)
        next => cases stepped
  | free i request =>
      cases request with
      | read dst len offset flags ret type =>
          simp only [step, freeStep] at stepped
          split at stepped
          next completed =>
            cases stepped
            exact .front (.free completed.1 completed.2.1)
          next => cases stepped
      | write => cases stepped
  | scheduler => exact .front (schedulerStep_cases stepped)
  | nvm idx => exact .nvm idx rfl (nvmStep_cases stepped)
  | ssd idx => exact .ssd idx rfl (ssdStep_cases stepped)
  | migrate thread =>
      obtain ⟨⟨idx, pc⟩, migration, stepped⟩ := Option.bind_eq_some_iff.1 stepped
      obtain ⟨next, moved, result⟩ := Option.map_eq_some_iff.1 stepped
      exact .migrate thread rfl migration moved result.symm

/-- Only callers post and free. -/
theorem NvmStep.calls (step : NvmStep s idx t) : t.toPost = s.toPost ∧
    t.submitQueue = s.submitQueue ∧ t.history.posted = s.history.posted ∧
      t.history.released = s.history.released := by
  cases step with
  | @act _ a => cases a <;> exact ⟨rfl, rfl, rfl, rfl⟩
  | finish =>
      unfold Pipeline.finish
      split <;> exact ⟨rfl, rfl, rfl, rfl⟩
  | turn | nvmTask | ssdTask | full | noTask | postSsd | nvmRead | nvmWrite | beginMigration
  | endMigration => exact ⟨rfl, rfl, rfl, rfl⟩

theorem SsdStep.calls (step : SsdStep s idx t) : t.toPost = s.toPost ∧
    t.submitQueue = s.submitQueue ∧ t.history.posted = s.history.posted ∧
      t.history.released = s.history.released := by
  cases step with
  | move =>
      unfold noteSsd
      dsimp only
      split
      · exact ⟨rfl, rfl, rfl, rfl⟩
      · split <;> exact ⟨rfl, rfl, rfl, rfl⟩
  | take | stage | count => exact ⟨rfl, rfl, rfl, rfl⟩

end

end Pipeline

end Mixdk
