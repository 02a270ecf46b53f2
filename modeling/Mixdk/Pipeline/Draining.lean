/-
# Pipeline.Draining -- large writes drain

A batch of writes of whole stripes comes to rest: with nothing indexed, each part of four
blocks is passed on by its nvm_worker and written and counted by its ssd_worker, and the
pipeline is as quiet as before (`Quiet`).  So the ssd_workers count all of its blocks
(`wholeStripes_counted`).
-/
import Mixdk.Pipeline.Batch

namespace Mixdk

open Transition

set_option autoImplicit false

/-! ## One large part -/

/-- With nothing indexed a large write is passed on, and nothing else. -/
theorem nvmWorkerSsdTask_large {md : Metadata} {task : IoTask} {idx : SegIdx}
    (empty : ∀ key, mixHashGet (md.segments idx).hash key = -1) (write : opCode task = MIX_WRITE)
    (large : ¬ task.len ≤ WRITE_THRESHOLD) : nvmWorkerSsdTask md task idx =
      .done md [.postTaskToSsd task, .nvmWriteBlockCompleted 0] 0 := by
  have cleared : mixClearBlock md task idx = (md, []) := by
    unfold mixClearBlock
    cases task.len with
    | zero => rfl
    | succ n => simp only [clearBlockLoop, empty, if_true]
  unfold nvmWorkerSsdTask redirectWrite
  rw [write, if_neg write_ne_read, if_pos rfl, if_neg large, cleared]
  rfl

namespace Pipeline

/-- Nothing queued, nothing in hand but the posts given, and nothing indexed. -/
structure Quiet (s : Pipeline) (toPost : List Request) (hand : List Post) : Prop where
  toPost : s.toPost 0 = toPost
  submitted : s.submitQueue 0 = []
  idx : s.idx = 0
  hand : s.hand = hand
  station : s.station = fun _ => .idle
  index : ∀ idx key, mixHashGet (s.m.md.segments idx).hash key = -1
  counted : s.m.completedNvmWriteBlockNum = 0

/-- The turns of one large part. -/
def partTurns (idx : SegIdx) : List Turn :=
  [.scheduler, .nvm idx, .nvm idx, .nvm idx, .nvm idx, .nvm idx, .ssd idx, .ssd idx, .ssd idx,
    .ssd idx]

/-- The scheduler posts the part, and the nvm_worker passes it on. -/
theorem partTurns_nvm {capacity : Nat} (room : 0 < capacity) {s : Pipeline} {idx : SegIdx}
    {task : IoTask} {rest : List Post} (hand : s.hand = .buffer idx task :: rest)
    (idle : s.station = fun _ => .idle) (type : task.type = SSD_TASK)
    (does : nvmWorkerSsdTask s.m.md task idx =
      .done s.m.md [.postTaskToSsd task, .nvmWriteBlockCompleted 0] 0) :
    exec (step 1 capacity) s [.scheduler, .nvm idx, .nvm idx, .nvm idx, .nvm idx, .nvm idx] =
      some
        { s with
          m := s.m.perform (.nvmWriteBlockCompleted 0)
          hand := rest
          station := Function.update s.station idx { Station.idle with ssdQueue := [task] } } := by
  obtain ⟨m, region, toPosts, submitQueue, i, inHand, station, migration, history⟩ := s
  dsimp only at hand idle does
  subst hand idle
  have notNvm : SSD_TASK ≠ NVM_TASK := by decide
  simp [exec, step, schedulerStep, room, nvmStep, pollStep, begin, resume, type, notNvm, does,
    perform, setStation, finish, Station.idle, note]

/-- The ssd_worker executes it. -/
theorem partTurns_ssd {capacity : Nat} {s : Pipeline} {idx : SegIdx} {task : IoTask}
    (queued : s.station idx = { Station.idle with ssdQueue := [task] }) :
    exec (step 1 capacity) s [.ssd idx, .ssd idx, .ssd idx, .ssd idx] = some
      { s with
        m := ((s.m.ssdTaskStage idx task).ssdTaskMove idx task).ssdTaskCount task
        station := Function.update s.station idx .idle
        history := noteSsd s.history task } := by
  obtain ⟨m, region, toPosts, submitQueue, i, inHand, station, migration, history⟩ := s
  dsimp only at queued
  simp [exec, step, ssdStep, queued, setStation, Station.idle]

theorem partTurns_exec {capacity : Nat} (room : 0 < capacity) {s : Pipeline} {idx : SegIdx}
    {task : IoTask} {rest : List Post} (hand : s.hand = .buffer idx task :: rest)
    (idle : s.station = fun _ => .idle) (type : task.type = SSD_TASK)
    (does : nvmWorkerSsdTask s.m.md task idx =
      .done s.m.md [.postTaskToSsd task, .nvmWriteBlockCompleted 0] 0) :
    exec (step 1 capacity) s (partTurns idx) = some
      { s with
        m := (((s.m.perform (.nvmWriteBlockCompleted 0)).ssdTaskStage idx task).ssdTaskMove idx
          task).ssdTaskCount task
        hand := rest
        history := noteSsd s.history task } := by
  refine (exec_trans (partTurns_nvm room hand idle type does)
    (partTurns_ssd (Function.update_self ..))).trans ?_
  simp only [Function.update_idem, idle]
  rw [Function.update_eq_self_iff.2 rfl]

theorem Quiet.part {capacity : Nat} (room : 0 < capacity) {s : Pipeline} {toPost : List Request}
    {idx : SegIdx} {task : IoTask} {rest : List Post}
    (quiet : s.Quiet toPost (.buffer idx task :: rest)) (type : task.type = SSD_TASK)
    (write : opCode task = MIX_WRITE) (large : ¬ task.len ≤ WRITE_THRESHOLD) :
    ∃ t, exec (step 1 capacity) s (partTurns idx) = some t ∧ t.Quiet toPost rest := by
  have does := nvmWorkerSsdTask_large (quiet.index idx) write large
  refine ⟨_, partTurns_exec room quiet.hand quiet.station type does, ?_⟩
  have keeps : ∀ m : Machine,
      (((m.ssdTaskStage idx task).ssdTaskMove idx task).ssdTaskCount task).md = m.md ∧
        (((m.ssdTaskStage idx task).ssdTaskMove idx task).ssdTaskCount
          task).completedNvmWriteBlockNum = m.completedNvmWriteBlockNum := by
    intro m
    simp only [Machine.ssdTaskStage, Machine.ssdTaskMove, Machine.ssdTaskCount, write_op write,
      if_neg write_ne_read, if_true]
    exact ⟨rfl, rfl⟩
  obtain ⟨index, counted⟩ := keeps (s.m.perform (.nvmWriteBlockCompleted 0))
  exact
    { quiet with
      hand := rfl
      index := by
        intro j key
        dsimp only
        rw [index]
        exact quiet.index j key
      counted := counted.trans quiet.counted }

end Pipeline

/-- A part of more than one block of a write. -/
def Post.LargeWrite : Post → Prop
  | .nvm _ => False
  | .buffer _ task =>
      task.type = SSD_TASK ∧ opCode task = MIX_WRITE ∧ ¬ task.len ≤ WRITE_THRESHOLD

/-- A write of whole stripes of the SSD region. -/
def Request.WholeStripes : Request → Prop
  | .read .. => False
  | .write src len offset flags type =>
      (Request.write src len offset flags type).Plain ∧ SCHEDULER_THRESHOLD ≤ offset ∧
        (offset - SCHEDULER_THRESHOLD) % STRIPE_SIZE = 0 ∧ len % STRIPE_SIZE = 0

theorem postTaskLoop_whole {task : IoTask} {fuel offset : Nat} {idx : SegIdx}
    (first : offset % STRIPE_SIZE = 0) (last : (task.offset + task.len) % STRIPE_SIZE = 0) :
    ∀ part ∈ postTaskLoop task fuel offset idx, part.2.len = STRIPE_SIZE := by
  induction fuel generalizing offset idx with
  | zero => exact List.forall_mem_nil _
  | succ fuel ih =>
      unfold postTaskLoop
      by_cases more : offset < task.offset + task.len
      · have stripe : STRIPE_SIZE ≤ task.offset + task.len - offset := by
          simp only [STRIPE_SIZE] at first last ⊢
          omega
        simp only [if_pos more, first, Nat.sub_zero, if_neg (Nat.not_lt.2 stripe)]
        refine List.forall_mem_cons.2 ⟨rfl, ih ?_⟩
        rw [Nat.add_mod_right, first]
      · simp only [if_neg more]
        exact List.forall_mem_nil _

theorem handleTask_ssd {task : IoTask} (above : SCHEDULER_THRESHOLD ≤ task.offset) :
    handleTask task =
      { task with offset := task.offset - SCHEDULER_THRESHOLD, type := SSD_TASK } := by
  unfold handleTask
  split
  next below => exact absurd (Nat.lt_of_le_of_lt (Nat.le_add_right _ _) below) (Nat.not_lt.2 above)
  next => rfl

/-- Such a write is cut into large parts only. -/
theorem Request.WholeStripes.posts {request : Request} (whole : request.WholeStripes) :
    ∀ post ∈ doSchedule (handleTask (request.task 0)), post.LargeWrite := by
  cases request with
  | read => exact whole.elim
  | write src len offset flags type =>
      obtain ⟨plain, above, first, last⟩ := whole
      rw [handleTask_ssd above, doSchedule_ssd rfl]
      intro post member
      obtain ⟨part, inside, rfl⟩ := List.mem_map.1 member
      obtain ⟨b, n, same, -⟩ := (mixPostTaskToBuffer_splits _).member inside
      have stripe : part.2.len = STRIPE_SIZE := by
        refine postTaskLoop_whole first ?_ part inside
        show (offset - SCHEDULER_THRESHOLD + len) % STRIPE_SIZE = 0
        rw [Nat.add_mod, first, last, Nat.add_zero, Nat.zero_mod]
      refine ⟨?_, ?_, ?_⟩
      · rw [same]
        rfl
      · rw [same]
        exact opCode_flags plain.1
      · rw [stripe]
        decide

namespace Pipeline

theorem Quiet.parts {capacity : Nat} (room : 0 < capacity) {toPost : List Request}
    {hand : List Post} (large : ∀ post ∈ hand, post.LargeWrite) {s : Pipeline}
    (quiet : s.Quiet toPost hand) :
    ∃ turns t, exec (step 1 capacity) s turns = some t ∧ t.Quiet toPost [] := by
  induction hand generalizing s with
  | nil => exact ⟨[], s, rfl, quiet⟩
  | cons post hand ih =>
      obtain ⟨here, later⟩ := List.forall_mem_cons.1 large
      cases post with
      | nvm => exact here.elim
      | buffer idx task =>
          obtain ⟨m, first, next⟩ := quiet.part room here.1 here.2.1 here.2.2
          obtain ⟨turns, t, second, done⟩ := ih later next
          exact ⟨_, t, exec_trans first second, done⟩

/-- A request is posted, and the scheduler takes it. -/
theorem Quiet.post {capacity : Nat} (room : 0 < capacity) {s : Pipeline} {request : Request}
    {rest : List Request} (quiet : s.Quiet (request :: rest) []) :
    ∃ t, exec (step 1 capacity) s [.post 0, .scheduler] = some t ∧
      t.Quiet rest (doSchedule (handleTask (request.task 0))) := by
  obtain ⟨m, region, toPost, submitQueue, idx, hand, station, migration, history⟩ := s
  obtain ⟨post, submitted, at_, inHand, idle, index, counted⟩ := quiet
  dsimp only at post submitted at_ inHand idle index counted
  subst at_ inHand idle
  refine ⟨
    { m := m
      region := region
      toPost := Function.update toPost 0 rest
      submitQueue := Function.update submitQueue 0 []
      idx := 0
      hand := doSchedule (handleTask (request.task 0))
      station := fun _ => .idle
      migration := migration
      history := { history with
        posted := Function.update history.posted 0 (history.posted 0 ++ [request]) } }, ?_, ?_⟩
  · simp [exec, step, postStep, post, submitted, room, schedulerStep, pollNext]
  · have none : Function.update submitQueue 0 [] 0 = [] := Function.update_self ..
    exact ⟨Function.update_self 0 rest toPost, none, rfl, rfl, rfl, index, counted⟩

theorem Quiet.requests {capacity : Nat} (room : 0 < capacity) {toPost : List Request}
    (whole : ∀ request ∈ toPost, request.WholeStripes) {s : Pipeline} (quiet : s.Quiet toPost []) :
    ∃ turns t, exec (step 1 capacity) s turns = some t ∧ t.Quiet [] [] := by
  induction toPost generalizing s with
  | nil => exact ⟨[], s, rfl, quiet⟩
  | cons request toPost ih =>
      obtain ⟨here, later⟩ := List.forall_mem_cons.1 whole
      obtain ⟨a, first, posted⟩ := quiet.post room
      obtain ⟨_, b, second, next⟩ := posted.parts room here.posts
      obtain ⟨_, t, third, done⟩ := ih later next
      exact ⟨_, t, exec_trans first (exec_trans second third), done⟩

end Pipeline

/-! ## A batch -/

theorem Pipeline.Quiet.atRest {s : Pipeline} (quiet : s.Quiet [] []) : s.AtRest 1 where
  posted := fun i below => Nat.lt_one_iff.1 below ▸ quiet.toPost
  submitted := fun i below => Nat.lt_one_iff.1 below ▸ quiet.submitted
  hand := quiet.hand
  station := fun idx => by
    rw [quiet.station]
    exact ⟨rfl, rfl, rfl, rfl, rfl⟩

theorem fresh_quiet (requests : Nat → List Request) :
    (Pipeline.fresh requests).Quiet (requests 0) [] where
  toPost := rfl
  submitted := rfl
  idx := rfl
  hand := rfl
  station := rfl
  index := fun _ _ => rfl
  counted := rfl

theorem wholeStripes_plain {requests : List Request}
    (whole : ∀ request ∈ requests, request.WholeStripes) (i : Nat) :
    ∀ request ∈ (if i = 0 then requests else []), request.Plain := by
  intro request member
  split at member
  · have stripes := whole request member
    cases request with
    | read => exact stripes.elim
    | write => exact stripes.1
  · cases member

/-- Writes of whole stripes are all counted by the ssd_workers. -/
theorem wholeStripes_counted {requests : List Request}
    (whole : ∀ request ∈ requests, request.WholeStripes) :
    ∃ turns s, exec (Pipeline.step 1 4096) (.fresh fun i => if i = 0 then requests else []) turns =
        some s ∧ s.AtRest 1 ∧ s.m.completedNvmWriteBlockNum = 0 ∧
      s.m.completedSsdWriteBlockNum = (requests.map Request.writeLen).sum := by
  obtain ⟨turns, s, ran, quiet⟩ :=
    (fresh_quiet fun i => if i = 0 then requests else []).requests
      (show 0 < 4096 by decide) whole
  refine ⟨turns, s, ran, quiet.atRest, quiet.counted, ?_⟩
  have accounted : s.Accounted 1 fun i => if i = 0 then requests else [] := exec_invariant
    (fun s _ _ accounted stepped => accounted.step (Pipeline.step_cases stepped)) ran
    (Pipeline.start_accounted _ _ fun i request member =>
      (wholeStripes_plain whole i request member).regional)
  have total := congrFun accounted.total .counted
  rw [quiet.atRest.due, (batch_writes (batch_plain _ (wholeStripes_plain whole))).2.1, add_zero] at total
  change s.m.completedNvmWriteBlockNum + s.m.completedSsdWriteBlockNum = _ at total
  rw [quiet.counted, Nat.zero_add] at total
  rw [total]
  simp [batch]

end Mixdk
