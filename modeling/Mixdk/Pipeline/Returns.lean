/-
# Pipeline.Returns -- batches that need no slot

Only a write of a single block looks for a free slot.  In a batch none of whose writes to the
SSD leaves a part of one block in a stripe (`NotSingle`) no worker therefore searches, no segment
gets full and no migration begins (`Calm.step`), whatever the buffer holds at the start.  At rest
its counters are exact (`Accounted.at_rest`).
-/
import Mixdk.Pipeline.Completion
import Mixdk.Pipeline.Helps

namespace Mixdk

open Transition

set_option autoImplicit false

/-- Not a write of a single block, for a buffer queue. -/
def Post.NotSingle : Post → Prop
  | .nvm _ => True
  | .buffer _ task => opCode task = MIX_WRITE → WRITE_THRESHOLD < task.len

instance : DecidablePred Post.NotSingle
  | .nvm _ => .isTrue trivial
  | .buffer _ task => inferInstanceAs (Decidable (opCode task = MIX_WRITE → _))

/-- No part of the task is a write of a single block. -/
def IoTask.NotSingle (task : IoTask) : Prop :=
  ∀ post ∈ doSchedule (handleTask task), post.NotSingle

instance (task : IoTask) : Decidable task.NotSingle := by
  unfold IoTask.NotSingle
  infer_instance

/-- No write of a single block is on its way to an nvm_worker. -/
structure Pipeline.NotSingle (s : Pipeline) : Prop where
  toPost : ∀ i, ∀ request ∈ s.toPost i, (request.task i).NotSingle
  submitted : ∀ i, ∀ task ∈ s.submitQueue i, task.NotSingle
  hand : ∀ post ∈ s.hand, post.NotSingle
  buffer : ∀ idx, ∀ task ∈ (s.station idx).bufferQueue,
    opCode task = MIX_WRITE → WRITE_THRESHOLD < task.len

namespace Pipeline

variable {P H submitQueueNum capacity : Nat} {s t : Pipeline} {idx : SegIdx}

theorem NotSingle.update (single : s.NotSingle) {station : Station}
    (here : ∀ task ∈ station.bufferQueue, opCode task = MIX_WRITE → WRITE_THRESHOLD < task.len)
    (j : SegIdx) : ∀ task ∈ (Function.update s.station idx station j).bufferQueue,
      opCode task = MIX_WRITE → WRITE_THRESHOLD < task.len :=
  (Function.forall_update_iff s.station fun _ station => ∀ task ∈ station.bufferQueue,
    opCode task = MIX_WRITE → WRITE_THRESHOLD < task.len).2 ⟨here, fun j _ => single.buffer j⟩ j

theorem NotSingle.front (single : s.NotSingle) {turn : Turn}
    (step : FrontStep submitQueueNum s turn t) : t.NotSingle := by
  cases step with
  | @post i request rest next queue =>
      have waiting := single.toPost i
      rw [next] at waiting
      obtain ⟨here, later⟩ := List.forall_mem_cons.1 waiting
      exact
        { single with
          toPost := (Function.forall_update_iff s.toPost fun i list => ∀ request ∈ list,
            (request.task i).NotSingle).2 ⟨later, fun j _ => single.toPost j⟩
          submitted := (Function.forall_update_iff s.submitQueue fun _ list => ∀ task ∈ list,
            task.NotSingle).2 ⟨List.forall_mem_append.2
              ⟨single.submitted i, List.forall_mem_singleton.2 here⟩,
              fun j _ => single.submitted j⟩ }
  | free | skip => exact { single with }
  | schedule hand queue =>
      have waiting := single.submitted s.idx
      rw [queue] at waiting
      obtain ⟨here, later⟩ := List.forall_mem_cons.1 waiting
      exact
        { single with
          submitted := (Function.forall_update_iff s.submitQueue fun _ list => ∀ task ∈ list,
            task.NotSingle).2 ⟨later, fun j _ => single.submitted j⟩
          hand := here }
  | toNvm hand inside =>
      have posts := single.hand
      rw [hand] at posts
      exact
        { single with
          hand := (List.forall_mem_cons.1 posts).2
          buffer := single.update (single.buffer _) }
  | toBuffer hand =>
      have posts := single.hand
      rw [hand] at posts
      obtain ⟨here, later⟩ := List.forall_mem_cons.1 posts
      exact
        { single with
          hand := later
          buffer := single.update (List.forall_mem_append.2
            ⟨single.buffer _, List.forall_mem_singleton.2 here⟩) }

theorem NotSingle.takes (single : s.NotSingle) {task : IoTask} {station : Station}
    (takes : Takes (s.station idx) task station) : ∀ task ∈ station.bufferQueue,
      opCode task = MIX_WRITE → WRITE_THRESHOLD < task.len := by
  cases takes with
  | nvm => exact single.buffer idx
  | buffer _ queue =>
      have waiting := single.buffer idx
      rw [queue] at waiting
      exact (List.forall_mem_cons.1 waiting).2

theorem NotSingle.step (single : s.NotSingle) {turn : Turn}
    (cases_ : StepCases submitQueueNum s turn t) : t.NotSingle := by
  cases cases_ with
  | front step => exact single.front step
  | nvm idx _ step =>
      cases step with
      | nvmTask _ takes | ssdTask _ takes | full _ takes | noTask _ takes =>
          have queue := single.takes takes
          exact { single with buffer := single.update queue }
      | turn | postSsd | act | nvmRead | nvmWrite | finish | beginMigration | endMigration =>
          exact { single with buffer := single.update (single.buffer idx) }
  | ssd idx _ step =>
      cases step <;> exact { single with buffer := single.update (single.buffer idx) }
  | migrate _ _ _ _ result => exact result ▸ { single with }

theorem NotSingle.taken (single : s.NotSingle) (fits : s.Fits) {task : IoTask} {station : Station}
    (takes : Takes (s.station idx) task station) (type : task.type = SSD_TASK)
    (write : opCode task = MIX_WRITE) : WRITE_THRESHOLD < task.len := by
  cases takes with
  | nvm _ queue =>
      rw [(fits.station idx).nvmQueue task (queue ▸ List.mem_cons_self)] at type
      cases type
  | buffer _ queue => exact single.buffer idx task (queue ▸ List.mem_cons_self) write

/-- Then no worker searches without end. -/
theorem NotSingle.no_spin (single : s.NotSingle) (fits : s.Fits) : ¬ s.Spins idx := by
  intro spins
  obtain ⟨task, station, takes, type, result⟩ := spins.takes
  obtain ⟨write, small, -⟩ := nvmWorkerSsdTask_spins result
  exact absurd (single.taken fits takes type write) (Nat.not_lt.2 small)

/-- No nvm_worker is in front of a migration, or in one. -/
def Calm (s : Pipeline) : Prop := ∀ idx task, ¬ (s.station idx).nvm.Migrates task

theorem Calm.update (calm : s.Calm) {station : Station}
    (stations : t.station = Function.update s.station idx station)
    (here : ∀ task, ¬ station.nvm.Migrates task) : t.Calm := by
  intro j
  rw [stations]
  exact (Function.forall_update_iff s.station fun _ station => ∀ task, ¬ station.nvm.Migrates task).2
    ⟨here, fun j _ => calm j⟩ j

/-- Then no segment gets full, so no migration begins. -/
theorem Calm.step (calm : s.Calm) (single : s.NotSingle) (fits : s.Fits) (indexes : s.Indexes P)
    {turn : Turn} (cases_ : StepCases submitQueueNum s turn t) : t.Calm := by
  cases cases_ with
  | front step =>
      cases step with
      | post | free | skip | schedule => exact calm
      | toNvm | toBuffer => exact calm.update rfl (calm _)
  | nvm idx _ step =>
      have doing (task : IoTask) (deeds : List Deed) :
          ∀ task', ¬ (NvmPc.doing task deeds).Migrates task' :=
        fun task' at_ => by rcases at_ with at_ | at_ <;> cases at_
      cases step with
      | turn => exact calm.update rfl (calm idx)
      | nvmTask | ssdTask | noTask | postSsd | act | nvmRead | nvmWrite =>
          exact calm.update rfl (doing _ _)
      | finish =>
          refine calm.update rfl fun task at_ => ?_
          rcases at_ with at_ | at_ <;> cases at_
      | full _ takes type result =>
          obtain ⟨write, small⟩ := nvmWorkerSsdTask_full result
          exact absurd (single.taken fits takes type write) (Nat.not_lt.2 small)
      | beginMigration full => exact absurd (.inl full) (calm idx _)
      | endMigration migrating => exact absurd (.inr migrating) (calm idx _)
  | ssd idx _ step => cases step <;> exact calm.update rfl (calm idx)
  | @migrate idx pc next thread _ migration =>
      obtain ⟨task, migrating⟩ := (indexes.owner idx).2 ⟨pc, migration⟩
      exact absurd (.inr migrating) (calm idx task)

/-! ## The counters at rest -/

/-- At rest every read is counted in full, and every written block is counted, as far as the
counters count. -/
theorem Accounted.at_rest {requests : Nat → List Request}
    (accounted : s.Accounted submitQueueNum requests) (rest : s.AtRest submitQueueNum)
    (plain : ∀ i, ∀ request ∈ requests i, request.Plain)
    (distinct : ((batch submitQueueNum requests).filterMap Request.ret?).Nodup) :
    (∀ dst len offset flags ret type,
      .read dst len offset flags ret type ∈ batch submitQueueNum requests → s.m.ret ret = len) ∧
    (((batch submitQueueNum requests).map Request.writeLen).sum < 2 ^ 31 →
      s.m.nvmCompleted + s.m.ssdCompleted =
        ((batch submitQueueNum requests).map Request.writeLen).sum) := by
  have batchPlain := batch_plain submitQueueNum plain
  constructor
  · intro dst len offset flags ret type member
    have added := accounted.read distinct member (k := .added ret) rfl rfl
    have owed := congrFun (batchPlain _ member).read_due (.added ret)
    rw [rest.due] at added
    simp only [blocksDue_added, and_self, if_true, Pi.zero_apply, Nat.add_zero] at owed added
    exact added.trans owed
  · intro short
    have total := congrFun accounted.total .counted
    rw [rest.due, (batch_writes batchPlain).2.1, add_zero] at total
    change s.m.completedNvmWriteBlockNum + s.m.completedSsdWriteBlockNum = _ at total
    have fit : s.m.CountersFit := ⟨by omega, by omega⟩
    rw [fit.sum, total]

/-- What holds in every state of a run of such a batch. -/
structure Slotless (P H submitQueueNum : Nat) (requests : Nat → List Request) (s : Pipeline) :
    Prop where
  steady : s.Steady P H submitQueueNum
  accounted : s.Accounted submitQueueNum requests
  single : s.NotSingle
  calm : s.Calm

theorem Slotless.step {requests : Nat → List Request}
    (slotless : s.Slotless P H submitQueueNum requests) {turn : Turn}
    (stepped : s.step submitQueueNum capacity turn = some t) :
    t.Slotless P H submitQueueNum requests where
  steady := slotless.steady.step stepped
  accounted := slotless.accounted.step (step_cases stepped)
  single := slotless.single.step (step_cases stepped)
  calm := slotless.calm.step slotless.single slotless.steady.fits slotless.steady.indexes
    (step_cases stepped)

theorem Slotless.start {m : Machine} {region : Nat → Block} {requests : Nat → List Request}
    (steady : (Pipeline.start m region requests).Steady P H submitQueueNum)
    (plain : ∀ i, ∀ request ∈ requests i, request.Plain)
    (notSingle : ∀ i, ∀ request ∈ requests i, (request.task i).NotSingle) :
    (Pipeline.start m region requests).Slotless P H submitQueueNum requests where
  steady := steady
  accounted := start_accounted m region fun i request member => (plain i request member).regional
  single := ⟨notSingle, fun _ _ member => (nomatch member), fun _ member => (nomatch member),
    fun _ _ member => (nomatch member)⟩
  calm := fun _ _ migrates => by rcases migrates with at_ | at_ <;> cases at_

end Pipeline

end Mixdk
