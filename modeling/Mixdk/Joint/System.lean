/-
# Joint.System -- all threads, with the handshakes of a migration

`Pipeline` lets a migration begin with every migrate thread at the start of its walk, and end when every
one is at its end.  The code has flags and a count for this: an nvm_worker waits for `queue_empty`, takes
`migrate_mutex`, raises the flag of every migrate thread and waits until all have counted themselves; a
migrate thread counts itself at the end of its walk, and lowers its flag after that.

`Joint` is the pipeline together with the flags and the count (`Rounds.State`) and with `queue_empty`;
each thread has its turn as before.  In a step the pipeline takes a step, or the round does, or both do:
a run is a run of the pipeline (`exec_pipe`) and one of the rounds (`exec_rounds`); to the two workers of
a segment it is one of `QueueEmpty` (`exec_queueEmpty`).
-/
import Mixdk.Handshake.Rounds
import Mixdk.Pipeline.Steps

namespace Mixdk

open Transition

set_option autoImplicit false

structure Joint where
  pipe : Pipeline
  rounds : Rounds.State MIGRATE_THREAD_NUM
  /-- `queue_empty` -/
  queueEmpty : SegIdx → Bool
  /-- Whether `mix_dequeue` found the queue empty, when that is still to be written to `queue_empty`. -/
  answer : SegIdx → Option Bool
  /-- The nvm_worker has come out of `while(!mix_ssd_queue_is_empty(idx))`. -/
  waited : SegIdx → Bool

namespace Joint

/-- All flags down; `segmentIdx` is what `*migrate_segment_idx` happens to be. -/
def start (m : Machine) (region : Nat → Block) (requests : Nat → List Request)
    (segmentIdx : SegIdx) : Joint :=
  { pipe := .start m region requests
    rounds := Rounds.init MIGRATE_THREAD_NUM segmentIdx
    queueEmpty := fun _ => false
    answer := fun _ => none
    waited := fun _ => false }

/-- All threads of a machine that has just been initialised. -/
def fresh (segmentIdx : SegIdx) (requests : Nat → List Request) : Joint :=
  { pipe := .fresh requests
    rounds := Rounds.init MIGRATE_THREAD_NUM segmentIdx
    queueEmpty := fun _ => false
    answer := fun _ => none
    waited := fun _ => false }

/-! ## Steps -/

section

variable (submitQueueNum capacity : Nat) (s : Joint)

/-- A step of the pipeline alone. -/
def inPipe (turn : Pipeline.Turn) : Option Joint :=
  (s.pipe.step submitQueueNum capacity turn).map fun pipe => { s with pipe := pipe }

/-- A step of the round alone. -/
def inRounds (label : Rounds.Label MIGRATE_THREAD_NUM) : Option Joint :=
  (Rounds.step s.rounds label).map fun rounds => { s with rounds := rounds }

/-- `mix_migrate_segment` up to `mix_segment_migration_begin`: the wait for `queue_empty`, the mutex, and
the begin of the migration. -/
def fullStep (idx : SegIdx) : Option Joint :=
  if s.waited idx then
    match s.rounds.worker idx with
    | .idle => s.inRounds (.lock idx)
    | .locked =>
        (Rounds.step s.rounds (.begin idx)).bind fun rounds =>
          (s.pipe.step submitQueueNum capacity (.nvm idx)).map fun pipe =>
            { s with pipe := pipe, rounds := rounds, waited := Function.update s.waited idx false }
    | .migrating | .ended => none
  else some { s with waited := Function.update s.waited idx (s.queueEmpty idx) }

/-- The wait of `mix_segment_migration_end`, and what comes after it: the bitmap is cleared, the mutex
unlocked, and the nvm_worker goes on with its write. -/
def migratingStep (idx : SegIdx) : Option Joint :=
  match s.rounds.worker idx with
  | .migrating => s.inRounds (.finish idx)
  | .ended =>
      (Rounds.step s.rounds (.unlock idx)).bind fun rounds =>
        (s.pipe.step submitQueueNum capacity (.nvm idx)).map fun pipe =>
          { s with pipe := pipe, rounds := rounds }
  | .idle | .locked => none

def nvmStep (idx : SegIdx) : Option Joint :=
  match (s.pipe.station idx).nvm with
  | .full _ => s.fullStep submitQueueNum capacity idx
  | .migrating _ => s.migratingStep submitQueueNum capacity idx
  | .poll | .doing .. => s.inPipe submitQueueNum capacity (.nvm idx)

/-- `get_task_from_ssd_queue` writes `queue_empty` after the `mix_dequeue`. -/
def ssdStep (idx : SegIdx) : Option Joint :=
  match s.answer idx with
  | some empty =>
      some { s with
        queueEmpty := Function.update s.queueEmpty idx empty
        answer := Function.update s.answer idx none }
  | none =>
      if (s.pipe.station idx).ssd = .poll then
        match s.pipe.step submitQueueNum capacity (.ssd idx) with
        | none => some { s with answer := Function.update s.answer idx (some true) }
        | some pipe =>
            some { s with pipe := pipe, answer := Function.update s.answer idx (some false) }
      else s.inPipe submitQueueNum capacity (.ssd idx)

/-- The thread is at the end of its walk. -/
def walked (t : Fin MIGRATE_THREAD_NUM) : Bool :=
  s.pipe.migration.any fun (_, pc) => decide (pc t = .done)

/-- One step of a migrate thread: where `Rounds` has the walk as one step, the thread walks step by
step. -/
def migrateStep (t : Fin MIGRATE_THREAD_NUM) : Option Joint :=
  match s.rounds.thread t with
  | .drain _ =>
      if s.walked t then s.inRounds (.thread t)
      else s.inPipe submitQueueNum capacity (.migrate t)
  | .see | .readIdx | .count _ | .reset => s.inRounds (.thread t)

/-- One step of one thread. -/
def step : Pipeline.Turn → Option Joint
  | .nvm idx => s.nvmStep submitQueueNum capacity idx
  | .ssd idx => s.ssdStep submitQueueNum capacity idx
  | .migrate t => s.migrateStep submitQueueNum capacity t
  | .post i => s.inPipe submitQueueNum capacity (.post i)
  | .free i request => s.inPipe submitQueueNum capacity (.free i request)
  | .scheduler => s.inPipe submitQueueNum capacity .scheduler

end

/-! ## What a step can be -/

/-- The turn is none of a handshake. -/
def Plain (s : Joint) : Pipeline.Turn → Prop
  | .nvm idx => (∀ task, (s.pipe.station idx).nvm ≠ .full task) ∧
      ∀ task, (s.pipe.station idx).nvm ≠ .migrating task
  | .ssd idx => s.answer idx = none ∧ (s.pipe.station idx).ssd ≠ .poll
  | .migrate t => (∃ idx, s.rounds.thread t = .drain idx) ∧ s.walked t = false
  | .post _ | .free .. | .scheduler => True

theorem step_plain {submitQueueNum capacity : Nat} {s : Joint} {turn : Pipeline.Turn}
    (plain : s.Plain turn) :
    s.step submitQueueNum capacity turn = s.inPipe submitQueueNum capacity turn := by
  cases turn with
  | post | free | scheduler => rfl
  | nvm idx =>
      obtain ⟨notFull, notMigrating⟩ := plain
      simp only [step, nvmStep]
      cases at_ : (s.pipe.station idx).nvm with
      | full task => exact absurd at_ (notFull task)
      | migrating task => exact absurd at_ (notMigrating task)
      | poll | doing => rfl
  | ssd idx =>
      obtain ⟨answer, busy⟩ := plain
      simp only [step, ssdStep, answer, if_neg busy]
  | migrate t =>
      obtain ⟨⟨idx, at_⟩, walks⟩ := plain
      simp only [step, migrateStep, at_, walks, Bool.false_eq_true, if_false]

inductive StepCases (submitQueueNum capacity : Nat) (s : Joint) : Pipeline.Turn → Joint → Prop
  | pipe {turn : Pipeline.Turn} {pipe : Pipeline} (plain : s.Plain turn)
      (stepped : s.pipe.step submitQueueNum capacity turn = some pipe) :
      StepCases submitQueueNum capacity s turn { s with pipe := pipe }
  | test {idx : SegIdx} {task : IoTask} (full : (s.pipe.station idx).nvm = .full task)
      (waits : s.waited idx = false) :
      StepCases submitQueueNum capacity s (.nvm idx)
        { s with waited := Function.update s.waited idx (s.queueEmpty idx) }
  | lock {idx : SegIdx} {task : IoTask} {rounds : Rounds.State MIGRATE_THREAD_NUM}
      (full : (s.pipe.station idx).nvm = .full task) (waited : s.waited idx = true)
      (locked : Rounds.step s.rounds (.lock idx) = some rounds) :
      StepCases submitQueueNum capacity s (.nvm idx) { s with rounds := rounds }
  | begin {idx : SegIdx} {task : IoTask} {rounds : Rounds.State MIGRATE_THREAD_NUM}
      {pipe : Pipeline} (full : (s.pipe.station idx).nvm = .full task)
      (waited : s.waited idx = true) (begun : Rounds.step s.rounds (.begin idx) = some rounds)
      (stepped : s.pipe.step submitQueueNum capacity (.nvm idx) = some pipe) :
      StepCases submitQueueNum capacity s (.nvm idx)
        { s with pipe := pipe, rounds := rounds, waited := Function.update s.waited idx false }
  | finish {idx : SegIdx} {task : IoTask} {rounds : Rounds.State MIGRATE_THREAD_NUM}
      (migrating : (s.pipe.station idx).nvm = .migrating task)
      (finished : Rounds.step s.rounds (.finish idx) = some rounds) :
      StepCases submitQueueNum capacity s (.nvm idx) { s with rounds := rounds }
  | unlock {idx : SegIdx} {task : IoTask} {rounds : Rounds.State MIGRATE_THREAD_NUM}
      {pipe : Pipeline} (migrating : (s.pipe.station idx).nvm = .migrating task)
      (unlocked : Rounds.step s.rounds (.unlock idx) = some rounds)
      (stepped : s.pipe.step submitQueueNum capacity (.nvm idx) = some pipe) :
      StepCases submitQueueNum capacity s (.nvm idx) { s with pipe := pipe, rounds := rounds }
  | set {idx : SegIdx} {empty : Bool} (answer : s.answer idx = some empty) :
      StepCases submitQueueNum capacity s (.ssd idx)
        { s with
          queueEmpty := Function.update s.queueEmpty idx empty
          answer := Function.update s.answer idx none }
  | found {idx : SegIdx} (answer : s.answer idx = none) (poll : (s.pipe.station idx).ssd = .poll)
      (empty : (s.pipe.station idx).ssdQueue = []) :
      StepCases submitQueueNum capacity s (.ssd idx)
        { s with answer := Function.update s.answer idx (some true) }
  | take {idx : SegIdx} {pipe : Pipeline} (answer : s.answer idx = none)
      (poll : (s.pipe.station idx).ssd = .poll)
      (stepped : s.pipe.step submitQueueNum capacity (.ssd idx) = some pipe) :
      StepCases submitQueueNum capacity s (.ssd idx)
        { s with pipe := pipe, answer := Function.update s.answer idx (some false) }
  | thread {t : Fin MIGRATE_THREAD_NUM} {rounds : Rounds.State MIGRATE_THREAD_NUM}
      (walked : ∀ idx, s.rounds.thread t = .drain idx → s.walked t = true)
      (moved : Rounds.step s.rounds (.thread t) = some rounds) :
      StepCases submitQueueNum capacity s (.migrate t) { s with rounds := rounds }

section

variable {submitQueueNum capacity : Nat} {s t : Joint} {idx : SegIdx}

theorem inPipe_cases {turn : Pipeline.Turn} (plain : s.Plain turn)
    (stepped : s.inPipe submitQueueNum capacity turn = some t) :
    StepCases submitQueueNum capacity s turn t := by
  obtain ⟨pipe, moved, rfl⟩ := Option.map_eq_some_iff.1 stepped
  exact .pipe plain moved

theorem fullStep_cases {task : IoTask} (full : (s.pipe.station idx).nvm = .full task)
    (stepped : s.fullStep submitQueueNum capacity idx = some t) :
    StepCases submitQueueNum capacity s (.nvm idx) t := by
  unfold fullStep at stepped
  split at stepped
  next waited =>
    split at stepped
    next =>
      obtain ⟨rounds, locked, rfl⟩ := Option.map_eq_some_iff.1 stepped
      exact .lock full waited locked
    next =>
      obtain ⟨rounds, begun, stepped⟩ := Option.bind_eq_some_iff.1 stepped
      obtain ⟨pipe, moved, rfl⟩ := Option.map_eq_some_iff.1 stepped
      exact .begin full waited begun moved
    next => cases stepped
    next => cases stepped
  next waits =>
    cases stepped
    exact .test full (Bool.eq_false_of_not_eq_true waits)

theorem migratingStep_cases {task : IoTask} (migrating : (s.pipe.station idx).nvm = .migrating task)
    (stepped : s.migratingStep submitQueueNum capacity idx = some t) :
    StepCases submitQueueNum capacity s (.nvm idx) t := by
  unfold migratingStep at stepped
  split at stepped
  next =>
    obtain ⟨rounds, finished, rfl⟩ := Option.map_eq_some_iff.1 stepped
    exact .finish migrating finished
  next =>
    obtain ⟨rounds, unlocked, stepped⟩ := Option.bind_eq_some_iff.1 stepped
    obtain ⟨pipe, moved, rfl⟩ := Option.map_eq_some_iff.1 stepped
    exact .unlock migrating unlocked moved
  next => cases stepped
  next => cases stepped

/-- A polling ssd_worker is held up by an empty queue alone. -/
theorem ssd_blocked (poll : (s.pipe.station idx).ssd = .poll)
    (blocked : s.pipe.step submitQueueNum capacity (.ssd idx) = none) :
    (s.pipe.station idx).ssdQueue = [] := by
  cases queue : (s.pipe.station idx).ssdQueue with
  | nil => rfl
  | cons task rest => simp [Pipeline.step, Pipeline.ssdStep, poll, queue] at blocked

theorem ssdStep_cases (stepped : s.ssdStep submitQueueNum capacity idx = some t) :
    StepCases submitQueueNum capacity s (.ssd idx) t := by
  unfold ssdStep at stepped
  split at stepped
  next empty answer =>
    cases stepped
    exact .set answer
  next answer =>
    split at stepped
    next poll =>
      split at stepped
      next blocked =>
        cases stepped
        exact .found answer poll (ssd_blocked poll blocked)
      next pipe moved =>
        cases stepped
        exact .take answer poll moved
    next busy => exact inPipe_cases ⟨answer, busy⟩ stepped

theorem inRounds_cases {thread : Fin MIGRATE_THREAD_NUM}
    (walked : ∀ idx, s.rounds.thread thread = .drain idx → s.walked thread = true)
    (stepped : s.inRounds (.thread thread) = some t) :
    StepCases submitQueueNum capacity s (.migrate thread) t := by
  obtain ⟨rounds, moved, rfl⟩ := Option.map_eq_some_iff.1 stepped
  exact .thread walked moved

theorem migrateStep_cases {thread : Fin MIGRATE_THREAD_NUM}
    (stepped : s.migrateStep submitQueueNum capacity thread = some t) :
    StepCases submitQueueNum capacity s (.migrate thread) t := by
  unfold migrateStep at stepped
  cases at_ : s.rounds.thread thread with
  | drain idx =>
      rw [at_] at stepped
      dsimp only at stepped
      split at stepped
      next walked => exact inRounds_cases (fun _ _ => walked) stepped
      next walks =>
        exact inPipe_cases ⟨⟨idx, at_⟩, Bool.eq_false_of_not_eq_true walks⟩ stepped
  | see | readIdx | count | reset =>
      rw [at_] at stepped
      refine inRounds_cases (fun idx there => ?_) stepped
      rw [at_] at there
      cases there

/-- **A step is one of these.** -/
theorem step_cases {turn : Pipeline.Turn} (stepped : s.step submitQueueNum capacity turn = some t) :
    StepCases submitQueueNum capacity s turn t := by
  cases turn with
  | post | free | scheduler => exact inPipe_cases trivial stepped
  | nvm idx =>
      change s.nvmStep submitQueueNum capacity idx = some t at stepped
      unfold nvmStep at stepped
      cases at_ : (s.pipe.station idx).nvm with
      | full task =>
          rw [at_] at stepped
          exact fullStep_cases at_ stepped
      | migrating task =>
          rw [at_] at stepped
          exact migratingStep_cases at_ stepped
      | poll | doing =>
          rw [at_] at stepped
          refine inPipe_cases ⟨fun task there => ?_, fun task there => ?_⟩ stepped
          · rw [at_] at there
            cases there
          · rw [at_] at there
            cases there
  | ssd idx => exact ssdStep_cases stepped
  | migrate thread => exact migrateStep_cases stepped

/-! ## A run of the pipeline, and of the rounds -/

/-- The pipeline takes a step, or stays where it is. -/
theorem StepCases.pipe_step {turn : Pipeline.Turn} (cases_ : StepCases submitQueueNum capacity s turn t) :
    t.pipe = s.pipe ∨ s.pipe.step submitQueueNum capacity turn = some t.pipe := by
  cases cases_ with
  | pipe _ stepped | begin _ _ _ stepped | unlock _ _ stepped | take _ _ stepped =>
      exact .inr stepped
  | test | lock | finish | set | found | thread => exact .inl rfl

/-- And so does the round. -/
theorem StepCases.rounds_step {turn : Pipeline.Turn}
    (cases_ : StepCases submitQueueNum capacity s turn t) :
    t.rounds = s.rounds ∨ ∃ label, Rounds.step s.rounds label = some t.rounds := by
  cases cases_ with
  | lock _ _ stepped | begin _ _ stepped | finish _ stepped | unlock _ stepped | thread _ stepped =>
      exact .inr ⟨_, stepped⟩
  | pipe | test | set | found | take => exact .inl rfl

/-- **A run of all threads is a run of the pipeline.** -/
theorem exec_pipe {turns : List Pipeline.Turn}
    (ran : exec (Joint.step submitQueueNum capacity) s turns = some t) :
    ∃ turns', exec (Pipeline.step submitQueueNum capacity) s.pipe turns' = some t.pipe := by
  refine exec_image (fun s turn t stepped => ?_) ran
  exact (step_cases stepped).pipe_step.imp_right fun moved => ⟨turn, moved⟩

/-- **And it is a run of the rounds.** -/
theorem exec_rounds {turns : List Pipeline.Turn}
    (ran : exec (Joint.step submitQueueNum capacity) s turns = some t) :
    ∃ labels, exec Rounds.step s.rounds labels = some t.rounds :=
  exec_image (fun _ _ _ stepped => (step_cases stepped).rounds_step) ran

end

end Joint

end Mixdk
