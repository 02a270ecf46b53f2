/-
# Pipeline.Accounting -- every block is counted once, and not early

`Pipeline.due` is what all queues and threads together still owe, `Pipeline.done` what has
been copied, stored and counted.  No step changes their sum (`conserved`): a block moves
from queue to queue, is cut off with its part, and is paid when it is copied and when it is
counted.  And what is owed is backed at every moment (`StillBacked`): a worker copies before
it counts.
-/
import Mixdk.Pipeline.Owed
import Mixdk.Pipeline.Slots
import Mathlib.Data.Fintype.BigOperators

namespace Mixdk

open Transition

set_option autoImplicit false

/-! ## What is done -/

theorem ssdTaskStage_counters (m : Machine) (idx : SegIdx) (task : IoTask) :
    (m.ssdTaskStage idx task).counters = m.counters := by
  unfold Machine.ssdTaskStage
  dsimp only
  split
  · rfl
  · split <;> rfl

theorem ssdTaskMove_counters (m : Machine) (idx : SegIdx) (task : IoTask) :
    (m.ssdTaskMove idx task).counters = m.counters := by
  unfold Machine.ssdTaskMove
  dsimp only
  split
  · rfl
  · split <;> rfl

/-- What the counters, the deliveries and the stores come to. -/
def tally (m : Machine) (history : History) : Owed
  | .copy ret dst => history.copied.count (ret, dst)
  | .copies ret => history.copied.countP fun copy => copy.1 = ret
  | .added ret => m.ret ret
  | .store src => history.stored.count src
  | .stores => history.stored.length
  | .counted => m.completedNvmWriteBlockNum + m.completedSsdWriteBlockNum

section

variable (m : Machine) (history : History)

/-- The tallies read nothing else. -/
theorem tally_congr {m' : Machine} {history' : History} (counters : m'.counters = m.counters)
    (copied : history'.copied = history.copied) (stored : history'.stored = history.stored) :
    tally m' history' = tally m history := by
  simp only [Machine.counters, Prod.mk.injEq] at counters
  obtain ⟨ret, nvm, ssd⟩ := counters
  funext k
  cases k <;> simp only [tally, ret, nvm, ssd, copied, stored]

theorem tally_posted (posted : Nat → List Request) :
    tally m { history with posted := posted } = tally m history :=
  tally_congr m history rfl rfl rfl

theorem tally_copy (ret dst : Nat) :
    tally m { history with copied := history.copied ++ [(ret, dst)] } =
      tally m history + delivery ret dst := by
  funext k
  cases k with
  | copy r d =>
      simp [tally, delivery, List.count_singleton, eq_comm (a := ret), eq_comm (a := dst)]
  | copies r => simp [tally, delivery, List.countP_singleton, eq_comm (a := ret)]
  | added r => simp [tally, delivery]
  | store src => simp [tally, delivery]
  | stores => simp [tally, delivery]
  | counted => simp [tally, delivery]

theorem tally_store (src : Nat) :
    tally m { history with stored := history.stored ++ [src] } = tally m history + storing src := by
  funext k
  cases k with
  | copy r d => simp [tally, storing]
  | copies r => simp [tally, storing]
  | added r => simp [tally, storing]
  | store a => simp [tally, storing, List.count_singleton, eq_comm (a := src)]
  | stores => simp [tally, storing]
  | counted => simp [tally, storing]

theorem tally_copied (copies : List (Nat × Nat)) :
    tally m { history with copied := history.copied ++ copies } =
      tally m history + (copies.map fun copy => delivery copy.1 copy.2).sum := by
  induction copies generalizing history with
  | nil => simp
  | cons copy copies ih =>
      have later := ih { history with copied := history.copied ++ [copy] }
      simp only [List.append_assoc, List.singleton_append] at later
      rw [later, tally_copy, List.map_cons, List.sum_cons, add_assoc]

theorem tally_stored (stores : List Nat) :
    tally m { history with stored := history.stored ++ stores } =
      tally m history + (stores.map storing).sum := by
  induction stores generalizing history with
  | nil => simp
  | cons src stores ih =>
      have later := ih { history with stored := history.stored ++ [src] }
      simp only [List.append_assoc, List.singleton_append] at later
      rw [later, tally_store, List.map_cons, List.sum_cons, add_assoc]

theorem tally_addRet (ret n : Nat) :
    tally (m.addRet ret n) history = tally m history + n • one (.added ret) := by
  funext k
  cases k with
  | added r => by_cases same : r = ret <;> simp [tally, Machine.addRet, same]
  | _ => simp [tally, Machine.addRet]

theorem tally_nvmCompleted (n : Nat) :
    tally { m with completedNvmWriteBlockNum := m.completedNvmWriteBlockNum + n } history =
      tally m history + n • one .counted := by
  funext k
  cases k with
  | counted => simp [tally, Nat.add_right_comm]
  | _ => simp [tally]

theorem tally_ssdCompleted (n : Nat) :
    tally { m with completedSsdWriteBlockNum := m.completedSsdWriteBlockNum + n } history =
      tally m history + n • one .counted := by
  funext k
  cases k with
  | counted => simp [tally, Nat.add_assoc]
  | _ => simp [tally]

/-- What an action delivers, stores or counts. -/
theorem tally_perform {a : Action} (other : ∀ posted, a ≠ .postTaskToSsd posted) (task : IoTask) :
    tally (m.perform a) (Pipeline.note history task a) =
      tally m history + deedDue task (.act a) := by
  cases a with
  | postTaskToSsd posted => exact absurd rfl (other posted)
  | readFromBuffer dst block => exact tally_copy m history task.ret dst
  | writeToBuffer src srcBlock dstBlock flags => exact tally_store m history src
  | bufferClear block => rfl
  | addRet ret n => exact tally_addRet m history ret n
  | nvmWriteBlockCompleted n => exact tally_nvmCompleted m history n

theorem tally_nvmRead (mem : Mem) (ret dst : Nat) (log : List NvmEvent) :
    tally { m with mem := mem }
        { history with copied := history.copied ++ [(ret, dst)], nvmLog := log } =
      tally m history + delivery ret dst := by
  rw [← tally_copy]
  exact tally_congr _ _ rfl rfl rfl

theorem tally_nvmWrite (src : Nat) (log : List NvmEvent) :
    tally m { history with stored := history.stored ++ [src], nvmLog := log } =
      tally m history + storing src := by
  rw [← tally_store]
  exact tally_congr _ _ rfl rfl rfl

/-- Staging delivers and counts nothing. -/
theorem tally_stage (idx : SegIdx) (task : IoTask) :
    tally (m.ssdTaskStage idx task) history = tally m history :=
  tally_congr m history (ssdTaskStage_counters m idx task) rfl rfl

theorem tally_move (idx : SegIdx) (task : IoTask) :
    tally (m.ssdTaskMove idx task) (Pipeline.noteSsd history task) = tally m history +
      movesDue (task.opcode &&& (MIX_READ ||| MIX_WRITE)) task.ret task.buf task.len := by
  unfold Machine.ssdTaskMove Pipeline.noteSsd movesDue
  dsimp only
  split
  · have copied := tally_copied m history
      ((List.range task.len).map fun j => (task.ret, task.buf + j * BLOCK_SIZE))
    rw [List.map_map] at copied
    exact copied
  · split
    · have stored := tally_stored m history
        ((List.range task.len).map fun j => task.buf + j * BLOCK_SIZE)
      rw [List.map_map] at stored
      exact stored
    · rfl

theorem tally_count (task : IoTask) : tally (m.ssdTaskCount task) history =
    tally m history + countsDue (task.opcode &&& (MIX_READ ||| MIX_WRITE)) task.ret task.len := by
  unfold Machine.ssdTaskCount countsDue
  dsimp only
  split
  · exact tally_addRet m history task.ret task.len
  · split
    · exact tally_ssdCompleted m history task.len
    · rfl

end

/-- The migrate threads leave the counters alone. -/
theorem migrateAction_counters {T : Nat} {idx : SegIdx} {thread : Fin T} {m : Machine}
    {pc : MigratePc} {next : Machine × MigratePc}
    (moved : migrateAction idx thread m pc = some next) : next.1.counters = m.counters := by
  cases pc with
  | pop bucket =>
      simp only [migrateAction] at moved
      split at moved
      · obtain ⟨popped, -, rfl⟩ := Option.map_eq_some_iff.1 moved
        split <;> rfl
      · cases moved
        rfl
  | read | stage | flush | clear | count =>
      cases moved
      rfl
  | done => cases moved

theorem migrateStep_counters {T : Nat} {idx : SegIdx} {s t : MigrateState T} {thread : Fin T}
    (moved : migrateStep idx s thread = some t) : t.m.counters = s.m.counters := by
  obtain ⟨next, action, rfl⟩ := Option.map_eq_some_iff.1 moved
  exact migrateAction_counters action

/-! ## What is owed -/

def NvmPc.due : NvmPc → Owed
  | .poll => 0
  | .doing task deeds => deedsDue task deeds
  | .full task | .migrating task => taskDue task

def SsdPhase.due : SsdPhase → Owed
  | .poll => 0
  | .execute task | .staged task => ssdDue task
  | .moved task => countsDue (task.opcode &&& (MIX_READ ||| MIX_WRITE)) task.ret task.len

def Station.due (station : Station) : Owed :=
  (station.bufferQueue.map taskDue).sum + (station.nvmQueue.map taskDue).sum + station.nvm.due +
    (station.ssdQueue.map ssdDue).sum + station.ssd.due

def Post.due : Post → Owed
  | .nvm task | .buffer _ task => taskDue task

def requestsDue (i : Nat) (requests : List Request) : Owed :=
  (requests.map fun request => taskDue (request.task i)).sum

/-- What is owed by the queues, the scheduler and the workers. -/
def systemDue (submitQueueNum : Nat) (toPost : Nat → List Request)
    (submitQueue : Nat → List IoTask) (hand : List Post) (station : SegIdx → Station) : Owed :=
  ∑ i ∈ Finset.range submitQueueNum, requestsDue i (toPost i) +
    ∑ i ∈ Finset.range submitQueueNum, ((submitQueue i).map taskDue).sum +
    (hand.map Post.due).sum + ∑ idx, (station idx).due

namespace Pipeline

def due (submitQueueNum : Nat) (s : Pipeline) : Owed :=
  systemDue submitQueueNum s.toPost s.submitQueue s.hand s.station

def done (s : Pipeline) : Owed := tally s.m s.history

end Pipeline

/-- Changing one summand changes the sum by as much. -/
theorem sum_update_add {ι σ : Type} [DecidableEq ι] {indices : Finset ι} {i : ι}
    (member : i ∈ indices) (f : ι → σ) (due : ι → σ → Owed) (x : σ) :
    ∑ j ∈ indices, due j (Function.update f i x j) + due i (f i) =
      ∑ j ∈ indices, due j (f j) + due i x := by
  rw [← Finset.add_sum_erase indices _ member,
    ← Finset.add_sum_erase indices (fun j => due j (f j)) member, Function.update_self]
  have others : ∑ j ∈ indices.erase i, due j (Function.update f i x j) =
      ∑ j ∈ indices.erase i, due j (f j) := by
    apply Finset.sum_congr rfl
    intro j inside
    rw [Function.update_of_ne (Finset.ne_of_mem_erase inside)]
  rw [others]
  abel

namespace Pipeline

variable {submitQueueNum : Nat} {s t : Pipeline} {idx : SegIdx}

/-- A step of a worker pays what its station owes less. -/
theorem conserved_of_station {station : Station} (toPost : t.toPost = s.toPost)
    (submitQueue : t.submitQueue = s.submitQueue) (hand : t.hand = s.hand)
    (stations : t.station = Function.update s.station idx station)
    (paid : t.done + station.due = s.done + (s.station idx).due) :
    t.done + t.due submitQueueNum = s.done + s.due submitQueueNum := by
  have here := sum_update_add (Finset.mem_univ idx) s.station (fun _ => Station.due) station
  simp only [due, systemDue, toPost, submitQueue, hand, stations]
  funext k
  have here := congrFun here k
  have paid := congrFun paid k
  simp only [Pi.add_apply] at here paid ⊢
  omega

theorem ssd_conserved (step : SsdStep s idx t) :
    t.done + t.due submitQueueNum = s.done + s.due submitQueueNum := by
  cases step with
  | take poll queue =>
      refine conserved_of_station rfl rfl rfl rfl ?_
      simp only [Station.due, poll, queue, SsdPhase.due, List.map_cons, List.sum_cons, done,
        setStation]
      abel
  | stage execute =>
      refine conserved_of_station rfl rfl rfl rfl ?_
      simp only [Station.due, execute, SsdPhase.due, done, setStation, tally_stage]
  | move staged =>
      refine conserved_of_station rfl rfl rfl rfl ?_
      simp only [Station.due, staged, SsdPhase.due, done, tally_move, ssdDue, blocksDue]
      abel
  | count moved =>
      refine conserved_of_station rfl rfl rfl rfl ?_
      simp only [Station.due, moved, SsdPhase.due, done, setStation, tally_count]
      abel

/-- The task taken is owed by the nvm_worker now. -/
theorem Takes.due {task : IoTask} {station station' : Station}
    (takes : Takes station task station') (pc : NvmPc) (poll : station.nvm = .poll)
    (same : pc.due = taskDue task) :
    ({ station' with nvm := pc } : Station).due = station.due := by
  cases takes with
  | nvm _ queue =>
      unfold Station.due
      rw [poll, queue, same, List.map_cons, List.sum_cons, NvmPc.due]
      abel
  | buffer _ queue =>
      unfold Station.due
      rw [poll, queue, same, List.map_cons, List.sum_cons, NvmPc.due]
      abel

/-- The list of executed tasks is no tally. -/
theorem finish_done (task : IoTask) : (s.finish idx task).done = s.done := by
  unfold finish done
  split <;> exact tally_congr _ _ rfl rfl rfl

theorem nvm_conserved (fits : s.Fits) (step : NvmStep s idx t) :
    t.done + t.due submitQueueNum = s.done + s.due submitQueueNum := by
  cases step with
  | turn poll odd => exact conserved_of_station rfl rfl rfl rfl rfl
  | nvmTask poll takes type =>
      refine conserved_of_station rfl rfl rfl rfl ?_
      rw [takes.due (.doing _ _) poll (nvmWorkerNvmTask_due _)]
      rfl
  | ssdTask poll takes type result =>
      have part : Part idx _ := (fits.takes takes).1.resolve_left (by rw [type]; decide)
      refine conserved_of_station rfl rfl rfl rfl ?_
      have due := (nvmWorkerSsdTask_actions part.inRange result).due part.inRange
      rw [takes.due (.doing _ _) poll due]
      rfl
  | full poll takes type result =>
      refine conserved_of_station rfl rfl rfl rfl ?_
      rw [takes.due (.full _) poll rfl]
      rfl
  | noTask poll takes notNvm notSsd =>
      rcases (fits.takes takes).1 with type | part
      · exact absurd type notNvm
      · exact absurd part.type notSsd
  | postSsd doing =>
      refine conserved_of_station rfl rfl rfl rfl ?_
      simp only [Station.due, doing, NvmPc.due, deedsDue_cons, deedDue, List.map_append,
        List.sum_append, List.map_cons, List.map_nil, List.sum_cons, List.sum_nil, done, setStation]
      abel
  | act other doing =>
      refine conserved_of_station rfl rfl rfl rfl ?_
      simp only [Station.due, doing, NvmPc.due, deedsDue_cons, done, tally_perform _ _ other]
      abel
  | nvmRead doing =>
      refine conserved_of_station rfl rfl rfl rfl ?_
      simp only [Station.due, doing, NvmPc.due, deedsDue_cons, deedDue, done, tally_nvmRead]
      abel
  | nvmWrite doing =>
      refine conserved_of_station rfl rfl rfl rfl ?_
      simp only [Station.due, doing, NvmPc.due, deedsDue_cons, deedDue, done, setStation,
        tally_nvmWrite]
      abel
  | finish doing =>
      refine conserved_of_station rfl rfl rfl rfl ?_
      simp only [Station.due, doing, NvmPc.due, deedsDue_nil, finish_done]
  | beginMigration full =>
      refine conserved_of_station rfl rfl rfl rfl ?_
      simp only [Station.due, full, NvmPc.due, done, setStation]
  | endMigration migrating result =>
      obtain ⟨write, one_block⟩ := (fits.station idx).nvm.migrates _ (.inr migrating)
      obtain ⟨block, rfl⟩ := afterMigration_actions result
      refine conserved_of_station rfl rfl rfl rfl ?_
      simp only [Station.due, migrating, NvmPc.due, afterMigration_due write one_block, done]
      rfl

end Pipeline

/-! ## The two regions -/

/-- The task is for one of the two regions; only such a task is given a type. -/
def IoTask.Sided (task : IoTask) : Prop :=
  task.offset + task.len < SCHEDULER_THRESHOLD ∨ SCHEDULER_THRESHOLD ≤ task.offset

/-- A task of one of the regions gets that region's type, and keeps the rest. -/
theorem handleTask_sided {task : IoTask} (sided : task.Sided) :
    taskDue (handleTask task) = taskDue task ∧
      ((handleTask task).type = NVM_TASK ∨ (handleTask task).type = SSD_TASK) := by
  unfold handleTask
  split
  next => exact ⟨rfl, .inl rfl⟩
  next notNvm =>
    split
    next => exact ⟨by simp only [taskDue, opCode], .inr rfl⟩
    next below => exact absurd (sided.resolve_left notNvm) below

/-- **What the scheduler posts for a task owes what the task owes.** -/
theorem doSchedule_due {task : IoTask} (sided : task.Sided) :
    ((doSchedule (handleTask task)).map Post.due).sum = taskDue task := by
  obtain ⟨same, nvm | ssd⟩ := handleTask_sided sided
  · rw [doSchedule_nvm nvm, List.map_singleton, List.sum_singleton, ← same]
    rfl
  · rw [doSchedule_ssd ssd, List.map_map, ← same]
    exact mixPostTaskToBuffer_due _

structure Pipeline.Sided (submitQueueNum : Nat) (s : Pipeline) : Prop where
  toPost : ∀ i, ∀ request ∈ s.toPost i, (request.task i).Sided
  submitted : ∀ i, ∀ task ∈ s.submitQueue i, task.Sided ∧ i < submitQueueNum

namespace Pipeline

variable {submitQueueNum : Nat} {s t : Pipeline}

theorem Sided.front (sided : s.Sided submitQueueNum) {turn : Turn}
    (step : FrontStep submitQueueNum s turn t) : t.Sided submitQueueNum := by
  cases step with
  | @post i request rest next queue =>
      have waiting := sided.toPost i
      rw [next] at waiting
      obtain ⟨first, rest⟩ := List.forall_mem_cons.1 waiting
      exact
        { toPost := (Function.forall_update_iff s.toPost fun j list => ∀ r ∈ list,
              (r.task j).Sided).2 ⟨rest, fun j _ => sided.toPost j⟩
          submitted := (Function.forall_update_iff s.submitQueue fun j list => ∀ task ∈ list,
              task.Sided ∧ j < submitQueueNum).2
            ⟨List.forall_mem_append.2 ⟨sided.submitted i,
              List.forall_mem_singleton.2 ⟨first, queue⟩⟩, fun j _ => sided.submitted j⟩ }
  | schedule hand queue =>
      have waiting := sided.submitted s.idx
      rw [queue] at waiting
      exact
        { sided with
          submitted := (Function.forall_update_iff s.submitQueue fun j list => ∀ task ∈ list,
              task.Sided ∧ j < submitQueueNum).2
            ⟨(List.forall_mem_cons.1 waiting).2, fun j _ => sided.submitted j⟩ }
  | free | skip | toNvm | toBuffer => exact { sided with }

theorem Sided.step (sided : s.Sided submitQueueNum) {turn : Turn}
    (cases_ : StepCases submitQueueNum s turn t) : t.Sided submitQueueNum := by
  cases cases_ with
  | front step => exact sided.front step
  | nvm idx _ step => cases step <;> exact { sided with }
  | ssd idx _ step => cases step <;> exact { sided with }
  | migrate _ _ _ _ result => exact result ▸ { sided with }

theorem front_conserved (sided : s.Sided submitQueueNum) {turn : Turn}
    (step : FrontStep submitQueueNum s turn t) :
    t.done + t.due submitQueueNum = s.done + s.due submitQueueNum := by
  cases step with
  | @post i request rest next queue =>
      have member : i ∈ Finset.range submitQueueNum := Finset.mem_range.2 queue
      have posted := sum_update_add member s.toPost requestsDue rest
      have queued := sum_update_add member s.submitQueue (fun _ list => (list.map taskDue).sum)
        (s.submitQueue i ++ [request.task i])
      simp only [due, systemDue, done]
      funext k
      have posted := congrFun posted k
      have queued := congrFun queued k
      simp only [next, requestsDue, List.map_cons, List.map_append, List.sum_append, List.map_nil,
        List.sum_cons, List.sum_nil, Pi.add_apply, Pi.zero_apply, tally_posted] at posted queued ⊢
      omega
  | free =>
      exact congrArg (· + s.due submitQueueNum) (tally_congr _ _ rfl rfl rfl)
  | skip => rfl
  | @schedule task rest hand queue =>
      have waiting := sided.submitted s.idx
      rw [queue] at waiting
      obtain ⟨side, inside⟩ := waiting task List.mem_cons_self
      have taken := sum_update_add (Finset.mem_range.2 inside) s.submitQueue
        (fun _ list => (list.map taskDue).sum) rest
      simp only [due, systemDue, done, hand, doSchedule_due side]
      funext k
      have taken := congrFun taken k
      simp only [queue, List.map_cons, List.sum_cons, List.map_nil, List.sum_nil, Pi.add_apply,
        Pi.zero_apply] at taken ⊢
      omega
  | @toNvm task rest hand inside =>
      have here := sum_update_add (Finset.mem_univ ⟨task.queueIdx, inside⟩) s.station
        (fun _ => Station.due)
        { s.station ⟨task.queueIdx, inside⟩ with
          nvmQueue := (s.station ⟨task.queueIdx, inside⟩).nvmQueue ++ [task] }
      simp only [due, systemDue, done, hand, setStation]
      funext k
      have here := congrFun here k
      simp only [Station.due, Post.due, List.map_append, List.sum_append, List.map_cons,
        List.map_nil, List.sum_cons, List.sum_nil, Pi.add_apply, Pi.zero_apply] at here ⊢
      omega
  | @toBuffer idx task rest hand =>
      have here := sum_update_add (Finset.mem_univ idx) s.station (fun _ => Station.due)
        { s.station idx with bufferQueue := (s.station idx).bufferQueue ++ [task] }
      simp only [due, systemDue, done, hand, setStation]
      funext k
      have here := congrFun here k
      simp only [Station.due, Post.due, List.map_append, List.sum_append, List.map_cons,
        List.map_nil, List.sum_cons, List.sum_nil, Pi.add_apply, Pi.zero_apply] at here ⊢
      omega

/-- **No step changes what is done and owed together.** -/
theorem conserved (fits : s.Fits) (sided : s.Sided submitQueueNum) {turn : Turn}
    (cases_ : StepCases submitQueueNum s turn t) :
    t.done + t.due submitQueueNum = s.done + s.due submitQueueNum := by
  cases cases_ with
  | front step => exact front_conserved sided step
  | nvm idx _ step => exact nvm_conserved fits step
  | ssd idx _ step => exact ssd_conserved step
  | migrate thread is migration moved result =>
      subst result
      have same : tally _ s.history = s.done :=
        tally_congr _ _ (migrateStep_counters moved) rfl rfl
      exact congrArg (· + s.due submitQueueNum) same

end Pipeline

/-! ## Not early -/

/-- The nvm_worker counts after it has copied. -/
def NvmPc.StillBacked : NvmPc → Prop
  | .doing task deeds => AlwaysBacked task deeds
  | .poll | .full _ | .migrating _ => True

namespace Pipeline

variable {submitQueueNum : Nat} {s t : Pipeline} {idx : SegIdx}

def StillBacked (s : Pipeline) : Prop := ∀ idx, (s.station idx).nvm.StillBacked

theorem StillBacked.update (backed : s.StillBacked) {station : Station}
    (here : station.nvm.StillBacked) (j : SegIdx) :
    (Function.update s.station idx station j).nvm.StillBacked :=
  (Function.forall_update_iff s.station fun _ st => st.nvm.StillBacked).2
    ⟨here, fun j _ => backed j⟩ j

theorem StillBacked.rest (backed : s.StillBacked) {task : IoTask} {deed : Deed}
    {rest : List Deed} (doing : (s.station idx).nvm = .doing task (deed :: rest)) :
    AlwaysBacked task rest := by
  have here := backed idx
  rw [doing] at here
  exact AlwaysBacked.tail here

theorem StillBacked.nvm (backed : s.StillBacked) (fits : s.Fits) (step : NvmStep s idx t) :
    t.StillBacked := by
  cases step with
  | turn => exact backed.update (backed idx)
  | nvmTask => exact backed.update (nvmWorkerNvmTask_backed _)
  | ssdTask _ takes type result =>
      have part : Part idx _ := (fits.takes takes).1.resolve_left (by rw [type]; decide)
      have actions := nvmWorkerSsdTask_actions part.inRange result
      exact backed.update (actions.backed part.inRange)
  | full => exact backed.update trivial
  | noTask => exact backed.update (AlwaysBacked.nil _)
  | postSsd doing | act _ doing | nvmRead doing | nvmWrite doing =>
      exact backed.update (backed.rest doing)
  | finish => exact backed.update trivial
  | beginMigration => exact backed.update trivial
  | endMigration migrating result =>
      obtain ⟨write, one_block⟩ := (fits.station idx).nvm.migrates _ (.inr migrating)
      obtain ⟨block, rfl⟩ := afterMigration_actions result
      exact backed.update (afterMigration_backed write one_block block)

theorem StillBacked.step (backed : s.StillBacked) (fits : s.Fits) {turn : Turn}
    (cases_ : StepCases submitQueueNum s turn t) : t.StillBacked := by
  cases cases_ with
  | nvm idx _ step => exact backed.nvm fits step
  | front step =>
      cases step with
      | toNvm | toBuffer => exact backed.update (backed _)
      | post | free | skip | schedule => exact backed
  | ssd idx _ step => cases step <;> exact backed.update (backed idx)
  | migrate _ _ _ _ result => exact result ▸ backed

theorem StillBacked.due (backed : s.StillBacked) (n : Nat) : Backed (s.due n) := by
  have tasks (list : List IoTask) : Backed (list.map taskDue).sum :=
    .sum (List.forall_mem_map.2 fun task _ => taskDue_backed task)
  have station idx : Backed (s.station idx).due := by
    refine ((((tasks _).add (tasks _)).add ?_).add ?_).add ?_
    · have here := backed idx
      cases pc : (s.station idx).nvm with
      | poll => exact .zero
      | doing task deeds =>
          rw [pc] at here
          exact here deeds (List.suffix_refl deeds)
      | full task | migrating task => exact taskDue_backed task
    · exact .sum (List.forall_mem_map.2 fun task _ => ssdDue_backed task)
    · cases (s.station idx).ssd with
      | poll => exact .zero
      | execute task | staged task => exact ssdDue_backed task
      | moved task => exact countsDue_backed ..
  refine (((?_ : Backed _).add ?_).add ?_).add ?_
  · exact Finset.sum_induction _ Backed (fun _ _ => .add) .zero fun i _ =>
      .sum (List.forall_mem_map.2 fun request _ => taskDue_backed _)
  · exact Finset.sum_induction _ Backed (fun _ _ => .add) .zero fun i _ => tasks _
  · refine .sum (List.forall_mem_map.2 fun post _ => ?_)
    cases post with
    | nvm task | buffer _ task => exact taskDue_backed task
  · exact Finset.sum_induction _ Backed (fun _ _ => .add) .zero fun idx _ => station idx

end Pipeline

end Mixdk
