/-
# Serial.Equivalence -- the whole device is serial

A run of all of MIXDK's threads in which no segment gets full settles where the tasks lead that
the nvm_workers began, served at once in the order they were begun (`settled_of_run`).  Each queue
has its tasks begun in the order in which the scheduler posted them, and tasks of different queues
can be swapped (`serve_swap`).  So when everything is done, the machine and the NVM region are as
if the requests had been handled one after another, each wholly before the next, in the order in
which the scheduler took them (`pipeline_serial`).  That order keeps the order of every submit
queue, and what the scheduler had taken before a request was posted comes before it
(`Serializes`).
-/
import Mixdk.Serial.Swap

namespace Mixdk

open Transition Lanes

set_option autoImplicit false

namespace Pipeline

/-! ## The order of the scheduler -/

/-- The tasks that the scheduler takes in a run, in order. -/
def scheduled (submitQueueNum capacity : Nat) : Pipeline → List Turn → List IoTask
  | _, [] => []
  | s, turn :: turns =>
      s.taken turn ++
        match s.step submitQueueNum capacity turn with
        | some t => scheduled submitQueueNum capacity t turns
        | none => []

/-- The tasks of submit queue `i` that the scheduler has not taken. -/
def coming (s : Pipeline) (i : Nat) : List IoTask :=
  s.submitQueue i ++ (s.toPost i).map (Request.task i)

/-- The submit queues in use have tasks with their index, the others none. -/
def Labelled (submitQueueNum : Nat) (s : Pipeline) : Prop :=
  ∀ i, ∀ task ∈ s.submitQueue i, task.queueIdx = i ∧ i < submitQueueNum

section

variable {submitQueueNum capacity : Nat} {s t : Pipeline} {turn : Turn} {turns : List Turn}

/-- What the scheduler takes in a turn is at the head of one submit queue. -/
theorem Labelled.step (labelled : s.Labelled submitQueueNum)
    (cases_ : StepCases submitQueueNum s turn t) :
    t.Labelled submitQueueNum ∧ (∀ task ∈ s.taken turn, task.queueIdx < submitQueueNum) ∧
      ∀ i, ((s.taken turn).filter fun task => task.queueIdx = i) ++ t.coming i = s.coming i := by
  -- a turn that takes nothing
  have idle : ∀ {turn : Turn}, s.taken turn = [] → t.Labelled submitQueueNum →
      (∀ i, t.coming i = s.coming i) → t.Labelled submitQueueNum ∧
        (∀ task ∈ s.taken turn, task.queueIdx < submitQueueNum) ∧
        ∀ i, ((s.taken turn).filter fun task => task.queueIdx = i) ++ t.coming i =
          s.coming i := by
    intro turn nothing labelled' coming
    rw [nothing]
    exact ⟨labelled', fun _ member => (nomatch member), coming⟩
  have unmoved : ∀ {turn : Turn}, s.taken turn = [] → t.toPost = s.toPost →
      t.submitQueue = s.submitQueue → t.Labelled submitQueueNum ∧
        (∀ task ∈ s.taken turn, task.queueIdx < submitQueueNum) ∧
        ∀ i, ((s.taken turn).filter fun task => task.queueIdx = i) ++ t.coming i =
          s.coming i := by
    intro turn nothing toPost submitQueue
    refine idle nothing ?_ fun i => ?_
    · rw [Labelled, submitQueue]
      exact labelled
    · rw [Pipeline.coming, toPost, submitQueue]
      rfl
  cases cases_ with
  | front step =>
      cases step with
      | @post i request rest next queue =>
          refine idle rfl ((Function.forall_update_iff s.submitQueue fun j list =>
            ∀ task ∈ list, task.queueIdx = j ∧ j < submitQueueNum).2
            ⟨List.forall_mem_append.2 ⟨labelled i, List.forall_mem_singleton.2
              ⟨request.task_queueIdx i, queue⟩⟩, fun j _ => labelled j⟩) fun j => ?_
          simp only [Pipeline.coming, Function.update_apply]
          split
          next same =>
            subst same
            rw [next, List.map_cons, List.append_assoc]
            rfl
          next => rfl
      | free posted completed => exact idle rfl labelled fun _ => rfl
      | skip hand queue => exact idle (taken_skip hand queue) labelled fun _ => rfl
      | @schedule task rest hand queue =>
          have one := taken_task hand queue
          have here := labelled s.idx
          rw [queue] at here
          obtain ⟨⟨mine, below⟩, later⟩ := List.forall_mem_cons.1 here
          rw [one]
          refine ⟨?_, List.forall_mem_singleton.2 (mine ▸ below), fun j => ?_⟩
          · exact (Function.forall_update_iff s.submitQueue fun j list =>
              ∀ task ∈ list, task.queueIdx = j ∧ j < submitQueueNum).2
              ⟨later, fun j _ => labelled j⟩
          · simp only [Pipeline.coming, Function.update_apply]
            split
            next same =>
              rw [List.filter_cons_of_pos (by simp [mine, same]), same, queue]
              rfl
            next other =>
              rw [List.filter_cons_of_neg (by simpa [mine] using Ne.symm other)]
              rfl
      | toNvm hand inside => exact idle (taken_hand hand) labelled fun _ => rfl
      | toBuffer hand => exact idle (taken_hand hand) labelled fun _ => rfl
  | nvm idx is step =>
      subst is
      exact unmoved rfl step.calls.1 step.calls.2.1
  | ssd idx is step =>
      subst is
      exact unmoved rfl step.calls.1 step.calls.2.1
  | migrate thread is migration moved result =>
      subst is result
      exact unmoved rfl rfl rfl

/-- The scheduler takes the tasks of each submit queue in order. -/
theorem scheduled_queue {guard : Pipeline → Turn → Prop} (labelled : s.Labelled submitQueueNum)
    (run : Run (Pipeline.step submitQueueNum capacity) guard s turns t) :
    (∀ task ∈ scheduled submitQueueNum capacity s turns, task.queueIdx < submitQueueNum) ∧
      ∀ i, ((scheduled submitQueueNum capacity s turns).filter fun task => task.queueIdx = i) ++
        t.coming i = s.coming i := by
  induction run with
  | nil => exact ⟨fun _ member => (nomatch member), fun _ => rfl⟩
  | @cons s m t turn turns met stepped rest ih =>
      obtain ⟨labelled', below, first⟩ := labelled.step (step_cases stepped)
      obtain ⟨later, lanes⟩ := ih labelled'
      rw [scheduled, stepped]
      refine ⟨List.forall_mem_append.2 ⟨below, later⟩, fun i => ?_⟩
      rw [List.filter_append, List.append_assoc, lanes i, first]

theorem scheduled_cons (stepped : s.step submitQueueNum capacity turn = some t)
    (turns : List Turn) : scheduled submitQueueNum capacity s (turn :: turns) =
      s.taken turn ++ scheduled submitQueueNum capacity t turns := by
  rw [scheduled, stepped]

theorem scheduled_append {past : List Turn} {u : Pipeline}
    (ran : exec (Pipeline.step submitQueueNum capacity) s past = some u) (future : List Turn) :
    scheduled submitQueueNum capacity s (past ++ future) =
      scheduled submitQueueNum capacity s past ++ scheduled submitQueueNum capacity u future := by
  induction past generalizing s with
  | nil =>
      obtain rfl := Option.some.inj ran
      rfl
  | cons turn past ih =>
      obtain ⟨m, stepped, rest⟩ := exec_cons_eq_some.1 ran
      rw [List.cons_append, scheduled, scheduled, stepped, List.append_assoc]
      exact congrArg _ (ih rest)

/-! ## Runs -/

theorem jobs_append (xs ys : List IoTask) : jobs (xs ++ ys) = jobs xs ++ jobs ys :=
  List.flatMap_append

/-- No segment is full, and a task that is begun meets a condition. -/
def Begins (Safe : Metadata → Post → Prop) (s : Pipeline) (turn : Turn) : Prop :=
  s.Unfull ∧ ∀ p, s.begun turn = some p → Safe s.m.md p

/-- **A run settles where the tasks lead that were begun in it, served at once; each queue has its
tasks begun in order.** -/
theorem settled_of_run {P : Nat} {Safe : Metadata → Post → Prop} (unfull : t.Unfull)
    (run : Run (Pipeline.step submitQueueNum capacity) (Begins Safe) s turns t)
    (ready : s.Ready P (s.hand ++ jobs (scheduled submitQueueNum capacity s turns))) :
    ∃ begun, Run Storage.serve (fun d p => Safe d.m.md p) s.settled begun t.settled ∧
      ∀ lane, (begun.filter fun p => p.lane = lane) ++ t.waiting t.hand lane =
        s.waiting (s.hand ++ jobs (scheduled submitQueueNum capacity s turns)) lane := by
  induction run with
  | nil =>
      rw [scheduled, jobs, List.flatMap_nil, List.append_nil] at *
      exact ⟨[], .nil _, fun _ => rfl⟩
  | @cons s m t turn turns met stepped rest ih =>
      have unfull' : m.Unfull := by
        cases rest with
        | nil => exact unfull
        | cons met' _ _ => exact met'.1
      rw [scheduled, stepped, jobs_append] at ready ⊢
      obtain ⟨ready', progress⟩ := ready.step met.1 unfull' (step_cases stepped)
      obtain ⟨begun, served, lanes⟩ := ih unfull ready'
      cases progress with
      | work settled waiting => exact ⟨begun, settled ▸ served, waiting ▸ lanes⟩
      | @begins p later taken first next waiting =>
          have safe : Safe s.settled.m.md p := by
            rw [settled_md]
            exact met.2 p taken
          refine ⟨p :: begun, .cons safe first served, fun lane => ?_⟩
          have here := lanes lane
          rw [waiting] at here
          by_cases same : lane = p.lane
          · rw [same, Function.update_self] at here
            rw [same, List.filter_cons_of_pos (by simp), List.cons_append, here, next]
          · rw [Function.update_of_ne same] at here
            have other : ¬ p.lane = lane := fun eq => same eq.symm
            rw [List.filter_cons_of_neg (by simpa using other), here]

/-! ## The ends of a run -/

theorem start_labelled (submitQueueNum : Nat) (m : Machine) (region : Nat → Block) (requests : Nat → List Request) :
    (start m region requests).Labelled submitQueueNum := fun _ _ member => nomatch member

theorem start_ready {P : Nat} {m : Machine} (region : Nat → Block)
    (requests : Nat → List Request) (running : Running P m) {tasks : List IoTask}
    (regional : ∀ task ∈ tasks, task.Regional) (separate : tasks.Pairwise IoTask.Separate) :
    (start m region requests).Ready P (jobs tasks) where
  running := ⟨running.all, running.perBlockNum⟩
  orderly :=
    { inSegment := fun _ _ member => (nomatch member)
      suits := jobs_suit regional
      order := fun _ => .nil
      ahead := fun _ _ member => (nomatch member)
      behind := jobs_apart regional separate
      across := fun _ _ _ _ member => (nomatch member) }
  aligned := fun _ _ member => (nomatch member)
  migration := rfl
  still := fun _ _ => nofun

/-- With nothing begun and nothing queued, everything is settled. -/
theorem AtRest.settled (rest : s.AtRest submitQueueNum) :
    s.Unfull ∧ s.settled = s.storage ∧ ∀ lane, s.waiting [] lane = [] := by
  refine ⟨fun idx task => ?_, ?_, fun lane => ?_⟩
  · obtain ⟨-, -, nvm, -⟩ := rest.station idx
    rw [nvm]
    exact nofun
  · refine settle_nil (fun idx _ => ?_) s.storage
    obtain ⟨-, -, nvm, ssdQueue, ssd⟩ := rest.station idx
    rw [left, Station.chores, nvm, ssdQueue, ssd]
    rfl
  · rw [waiting]
    split
    next inside =>
      obtain ⟨buffer, nvmQueue, -⟩ := rest.station ⟨lane.1, inside⟩
      rw [Station.lane, buffer, nvmQueue]
      cases lane.2 <;> rfl
    next => rfl

end

end Pipeline

/-! ## Serial execution -/

/-- A request handled at once, from the scheduler to the devices. -/
def Storage.handle (d : Storage) (task : IoTask) : Option Storage :=
  exec Storage.serve d (doSchedule (handleTask task))

/-- The tasks of a batch, queue by queue. -/
def batchTasks (submitQueueNum : Nat) (requests : Nat → List Request) : List IoTask :=
  (List.range submitQueueNum).flatMap fun i => (requests i).map (Request.task i)

theorem Request.Regional.task {request : Request} (regional : request.Regional) (i : Nat) :
    (request.task i).Regional := by
  cases request with
  | read | write => exact regional

/-- An order of a batch that keeps the order of each submit queue; and in which, at every point of
the run, what has been taken off the submit queues comes before what has not. -/
structure Serializes (submitQueueNum capacity : Nat) (requests : Nat → List Request)
    (start : Pipeline) (turns : List Pipeline.Turn) (order : List IoTask) : Prop where
  perm : order.Perm (batchTasks submitQueueNum requests)
  queues : ∀ i < submitQueueNum,
    (order.filter fun task => task.queueIdx = i) = (requests i).map (Request.task i)
  past : ∀ past future u, turns = past ++ future →
    exec (Pipeline.step submitQueueNum capacity) start past = some u →
    ∃ before after, order = before ++ after ∧ ∀ i,
      (before.filter fun task => task.queueIdx = i) ++ u.coming i =
        (requests i).map (Request.task i)

section

variable {P submitQueueNum capacity : Nat} {m : Machine} {region : Nat → Block}
  {requests : Nat → List Request} {turns : List Pipeline.Turn} {s : Pipeline}

/-- The order in which the scheduler takes the requests. -/
theorem scheduled_serializes {guard : Pipeline → Pipeline.Turn → Prop}
    (run : Run (Pipeline.step submitQueueNum capacity) guard (.start m region requests) turns s)
    (rest : s.AtRest submitQueueNum) :
    Serializes submitQueueNum capacity requests (.start m region requests) turns
      (Pipeline.scheduled submitQueueNum capacity (.start m region requests) turns) := by
  have labelled := Pipeline.start_labelled submitQueueNum m region requests
  have initial : ∀ i, (Pipeline.start m region requests).coming i =
      (requests i).map (Request.task i) := fun _ => rfl
  obtain ⟨below, lanes⟩ := Pipeline.scheduled_queue labelled run
  have queues : ∀ i < submitQueueNum,
      ((Pipeline.scheduled submitQueueNum capacity (.start m region requests) turns).filter
        fun task => task.queueIdx = i) = (requests i).map (Request.task i) := by
    intro i small
    have queue := lanes i
    rwa [Pipeline.coming, rest.submitted i small, rest.posted i small, List.map_nil,
      List.append_nil, List.append_nil, initial] at queue
  refine ⟨?_, queues, fun past future u split ran => ?_⟩
  · have perm := perm_lanes List.nodup_range IoTask.queueIdx
      fun task member => List.mem_range.2 (below task member)
    rwa [List.flatMap_congr fun i member => queues i (List.mem_range.1 member)] at perm
  · subst split
    have upto : Run (Pipeline.step submitQueueNum capacity) (fun _ _ => True)
        (.start m region requests) past u :=
      .of_exec (I := fun _ => True) (fun _ _ _ _ _ => trivial) (fun _ _ _ => trivial) ran trivial
    exact ⟨_, _, Pipeline.scheduled_append ran future, (Pipeline.scheduled_queue labelled upto).2⟩

theorem Serializes.of_mem {start : Pipeline} {order : List IoTask}
    (serializes : Serializes submitQueueNum capacity requests start turns order) {task : IoTask}
    (member : task ∈ order) :
    ∃ i < submitQueueNum, ∃ request ∈ requests i, task = request.task i := by
  obtain ⟨i, below, there⟩ := List.mem_flatMap.1 (serializes.perm.mem_iff.1 member)
  obtain ⟨request, posted, rfl⟩ := List.mem_map.1 there
  exact ⟨i, List.mem_range.1 below, request, posted, rfl⟩

/-- A batch that is done is served as the scheduler took it. -/
theorem served_in_order {Safe : Metadata → Post → Prop} (localized : Post.Local Safe)
    (running : Running P m) (regional : ∀ i, ∀ request ∈ requests i, request.Regional)
    (separate : (batchTasks submitQueueNum requests).Pairwise IoTask.Separate)
    (run : Run (Pipeline.step submitQueueNum capacity) (Pipeline.Begins Safe)
      (.start m region requests) turns s) (rest : s.AtRest submitQueueNum) :
    Run Storage.serve (fun d p => Safe d.m.md p) (Pipeline.start m region requests).storage
      (Pipeline.jobs (Pipeline.scheduled submitQueueNum capacity (.start m region requests) turns))
      s.storage := by
  have serializes := scheduled_serializes run rest
  generalize hand : Pipeline.scheduled submitQueueNum capacity (.start m region requests) turns =
    order at serializes
  have regional' : ∀ task ∈ order, task.Regional := by
    intro task member
    obtain ⟨i, -, request, posted, rfl⟩ := serializes.of_mem member
    exact (regional i request posted).task i
  have separate' : order.Pairwise IoTask.Separate :=
    (serializes.perm.pairwise_iff fun apart => apart.symm).2 separate
  have running' : Running P (Pipeline.start m region requests).m :=
    ⟨running.all, running.perBlockNum⟩
  have ready := Pipeline.start_ready region requests running regional' separate'
  obtain ⟨unfull, settled, empty⟩ := rest.settled
  obtain ⟨begun, served, waiting⟩ := Pipeline.settled_of_run unfull run (hand.symm ▸ ready)
  have initial : (Pipeline.start m region requests).settled =
      (Pipeline.start m region requests).storage := settle_nil (fun _ _ => rfl) _
  rw [settled, initial] at served
  have lanes : ∀ lane, (begun.filter fun p => p.lane = lane) =
      (Pipeline.jobs order).filter fun p => p.lane = lane := by
    intro lane
    have queued := waiting lane
    rw [rest.hand, empty lane, List.append_nil, hand] at queued
    rw [queued, Pipeline.waiting]
    split
    next => cases lane.2 <;> rfl
    next => rfl
  exact run_of_lanes Post.lane (fun d => Running P d.m) Post.Suits Post.Apart
    (fun _ _ _ running suits served => serve_running running suits served)
    (fun _ _ _ _ running suits suits' apart other both =>
      run_swap localized running suits suits' apart other both)
    (jobs_suit regional') (jobs_apart regional' separate') lanes running' served

end

/-- **Whatever the threads do, a batch that is done leaves the devices, the buffer and the callers'
memory as its requests leave them when handled one after another, in an order that keeps the
order of every submit queue and of what came before and after in time.** -/
theorem pipeline_serial {P submitQueueNum capacity : Nat} {m : Machine} (running : Running P m)
    (region : Nat → Block) {requests : Nat → List Request}
    (regional : ∀ i, ∀ request ∈ requests i, request.Regional)
    (memory : (batchTasks submitQueueNum requests).Pairwise IoTask.MemSeparate)
    (blocks : (batchTasks submitQueueNum requests).Pairwise IoTask.NvmSeparate)
    {turns : List Pipeline.Turn} {s : Pipeline}
    (run : Run (Pipeline.step submitQueueNum capacity) (fun s _ => s.Unfull)
      (.start m region requests) turns s)
    (rest : s.AtRest submitQueueNum) :
    ∃ order, Serializes submitQueueNum capacity requests (.start m region requests) turns order ∧
      exec Storage.handle (Pipeline.start m region requests).storage order = some s.storage := by
  have plain : Run (Pipeline.step submitQueueNum capacity) (Pipeline.Begins fun _ _ => True)
      (.start m region requests) turns s := run.weaken fun _ _ unfull => ⟨unfull, fun _ _ => trivial⟩
  have whole := (served_in_order (fun _ _ _ _ _ _ => trivial) running regional (memory.and blocks)
    plain rest).exec
  rw [Pipeline.jobs, exec_flatMap] at whole
  exact ⟨_, scheduled_serializes run rest, whole⟩

/-! ## A run -/

/-- No nvm_worker has found its segment full, as a test. -/
def Pipeline.unfull (s : Pipeline) : Bool :=
  allSegments.all fun idx =>
    match (s.station idx).nvm with
    | .full _ => false
    | .poll | .doing .. | .migrating _ => true

theorem Pipeline.unfull_sound {s : Pipeline} (unfull : s.unfull = true) : s.Unfull := by
  intro idx task full
  have here := List.all_eq_true.1 unfull idx (mem_segments idx)
  rw [full] at here
  cases here

instance (station : Station) : Decidable station.Idle := by
  unfold Station.Idle
  infer_instance

instance (submitQueueNum : Nat) (s : Pipeline) : Decidable (s.AtRest submitQueueNum) :=
  decidable_of_iff ((∀ i < submitQueueNum, s.toPost i = []) ∧
      (∀ i < submitQueueNum, s.submitQueue i = []) ∧ s.hand = [] ∧ ∀ idx, (s.station idx).Idle)
    ⟨fun ⟨posted, submitted, hand, station⟩ => ⟨posted, submitted, hand, station⟩,
      fun rest => ⟨rest.posted, rest.submitted, rest.hand, rest.station⟩⟩

/-- A write over two stripes and one to the NVM region; and, by another submit queue, a read of a
stripe that the write touches. -/
def overlapping (i : Nat) : List Request :=
  if i = 0 then [.write 0 2 (SCHEDULER_THRESHOLD + 3) 0 0, .write 0 1 5 0 0]
  else if i = 1 then [.read 65536 4 (SCHEDULER_THRESHOLD + 4) 0 9 0]
  else []

def overlappingTurns : List Pipeline.Turn :=
  let second := segmentOf STRIPE_SIZE
  [.post 0, .post 0, .post 1] ++ List.replicate 7 .scheduler ++ List.replicate 8 (.nvm second) ++
    List.replicate 4 (.ssd second) ++ List.replicate 2 (.nvm second) ++
    List.replicate 8 (.nvm (segmentOf 0))

theorem overlapping_plain : ∀ i, ∀ request ∈ overlapping i, request.Plain := by
  intro i request member
  unfold overlapping at member
  split at member
  · rcases List.mem_pair.1 member with rfl | rfl
    · exact ⟨rfl, .inr ⟨by decide, by decide⟩⟩
    · exact ⟨rfl, .inl (by decide)⟩
  · split at member
    · obtain rfl := List.mem_singleton.1 member
      exact ⟨rfl, .inr ⟨by decide, by decide⟩⟩
    · cases member

theorem overlapping_serial : ∃ s,
    Run (Pipeline.step 2 4) (fun s _ => s.Unfull) (.start smallBuffer (fun _ _ => 0) overlapping)
      overlappingTurns s ∧ s.AtRest 2 ∧
    ∃ order, Serializes 2 4 overlapping (.start smallBuffer (fun _ _ => 0) overlapping)
        overlappingTurns order ∧
      exec Storage.handle (Pipeline.start smallBuffer (fun _ _ => 0) overlapping).storage order =
        some s.storage := by
  have ends : (exec (fun s turn => if s.unfull then Pipeline.step 2 4 s turn else none)
      (.start smallBuffer (fun _ _ => 0) overlapping) overlappingTurns).any
        (fun s => decide (s.AtRest 2)) = true := by
    decide +kernel
  obtain ⟨s, ran, idle⟩ := (Option.any_eq_true _ _).1 ends
  have rest := of_decide_eq_true idle
  have run := Run.of_checked (fun _ _ => Pipeline.unfull_sound) ran
  exact ⟨s, run, rest, pipeline_serial (Running.init (show 32 < 2 ^ 32 by decide) rfl) _
    (fun i request member => (overlapping_plain i request member).regional) (by decide)
    (by decide) run rest⟩

end Mixdk
