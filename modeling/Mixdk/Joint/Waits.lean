/-
# Joint.Waits -- the wait for an empty queue, among all threads

`QueueEmpty` has the two workers of one segment, with the queue between them and its flag.  What all threads
do to these is a run of it, for each of the segments (`exec_queueEmpty`): so what holds in every run of
`QueueEmpty` holds among all threads.
-/
import Mixdk.Handshake.QueueEmpty
import Mixdk.Joint.System

namespace Mixdk

open Transition

set_option autoImplicit false

namespace Pipeline

theorem Takes.ssd {station next : Station} {task : IoTask} (takes : Takes station task next) :
    next.ssd = station.ssd ∧ next.ssdQueue = station.ssdQueue := by
  cases takes <;> exact ⟨rfl, rfl⟩

theorem post_room {submitQueueNum capacity : Nat} {s t : Pipeline} {idx : SegIdx}
    {task posted : IoTask} {rest : List Deed}
    (doing : (s.station idx).nvm = .doing task (.act (.postTaskToSsd posted) :: rest))
    (stepped : s.step submitQueueNum capacity (.nvm idx) = some t) :
    (s.station idx).ssdQueue.length < capacity := by
  simp only [step, nvmStep, doing, perform] at stepped
  split at stepped
  · assumption
  · cases stepped

end Pipeline

/-- The two workers of a segment, the queue between them, and its flag. -/
structure Wait where
  nvm : NvmPc
  ssd : SsdPhase
  queue : List IoTask
  queueEmpty : Bool
  answer : Option Bool
  waited : Bool

namespace Joint

def wait (s : Joint) (idx : SegIdx) : Wait :=
  { nvm := (s.pipe.station idx).nvm
    ssd := (s.pipe.station idx).ssd
    queue := (s.pipe.station idx).ssdQueue
    queueEmpty := s.queueEmpty idx
    answer := s.answer idx
    waited := s.waited idx }

end Joint

namespace Wait

/-- The nvm_worker is in its loop. -/
inductive InLoop : NvmPc → Prop
  | poll : InLoop .poll
  | doing (task : IoTask) (deeds : List Deed) : InLoop (.doing task deeds)

/-- What a step of any thread can do to them. -/
inductive Step (capacity : Nat) (v : Wait) : Wait → Prop
  | aside : Step capacity v v
  | work {pc : NvmPc} (before : InLoop v.nvm) (after : InLoop pc) :
      Step capacity v { v with nvm := pc }
  | full (task : IoTask) (before : InLoop v.nvm) : Step capacity v { v with nvm := .full task }
  | post {pc : NvmPc} {task : IoTask} (before : InLoop v.nvm) (after : InLoop pc)
      (room : v.queue.length < capacity) :
      Step capacity v { v with nvm := pc, queue := v.queue ++ [task] }
  | test {task : IoTask} (full : v.nvm = .full task) (waits : v.waited = false) :
      Step capacity v { v with waited := v.queueEmpty }
  | begin {task : IoTask} (full : v.nvm = .full task) (waited : v.waited = true) :
      Step capacity v { v with nvm := .migrating task, waited := false }
  | leave {task : IoTask} {pc : NvmPc} (migrating : v.nvm = .migrating task) (after : InLoop pc) :
      Step capacity v { v with nvm := pc }
  | set {empty : Bool} (answer : v.answer = some empty) :
      Step capacity v { v with queueEmpty := empty, answer := none }
  | found (answer : v.answer = none) (poll : v.ssd = .poll) (empty : v.queue = []) :
      Step capacity v { v with answer := some true }
  | take {task : IoTask} {rest : List IoTask} (answer : v.answer = none) (poll : v.ssd = .poll)
      (queue : v.queue = task :: rest) :
      Step capacity v { v with ssd := .execute task, queue := rest, answer := some false }
  | stage {task : IoTask} (answer : v.answer = none) (execute : v.ssd = .execute task) :
      Step capacity v { v with ssd := .staged task }
  | move {task : IoTask} (answer : v.answer = none) (staged : v.ssd = .staged task) :
      Step capacity v { v with ssd := .moved task }
  | count {task : IoTask} (answer : v.answer = none) (moved : v.ssd = .moved task) :
      Step capacity v { v with ssd := .poll }

end Wait

namespace Joint

section

variable {submitQueueNum capacity : Nat} {s t : Joint} {idx j : SegIdx}

theorem step_here {station : Station}
    (stations : t.pipe.station = Function.update s.pipe.station idx station)
    (step : Wait.Step capacity (s.wait idx)
      { nvm := station.nvm, ssd := station.ssd, queue := station.ssdQueue,
        queueEmpty := t.queueEmpty idx, answer := t.answer idx, waited := t.waited idx }) :
    Wait.Step capacity (s.wait idx) (t.wait idx) := by
  have here : t.pipe.station idx = station := by rw [stations, Function.update_self]
  subst here
  exact step

theorem step_aside (same : t.wait idx = s.wait idx) :
    Wait.Step capacity (s.wait idx) (t.wait idx) := by
  rw [same]
  exact .aside

theorem step_other {station : Station}
    (stations : t.pipe.station = Function.update s.pipe.station j station) (other : idx ≠ j)
    (queueEmpty : t.queueEmpty idx = s.queueEmpty idx) (answer : t.answer idx = s.answer idx)
    (waited : t.waited idx = s.waited idx) :
    Wait.Step capacity (s.wait idx) (t.wait idx) := by
  refine step_aside ?_
  rw [wait, wait, stations, Function.update_of_ne other, queueEmpty, answer, waited]

/-- The steps of the nvm_worker in its loop. -/
theorem nvm_waits {pipe : Pipeline} (plain : s.Plain (.nvm j))
    (stepped : s.pipe.step submitQueueNum capacity (.nvm j) = some pipe)
    (step : Pipeline.NvmStep s.pipe j pipe) :
    Wait.Step capacity (s.wait idx) (wait { s with pipe := pipe } idx) := by
  by_cases other : idx ≠ j
  · cases step <;> exact step_other rfl other rfl rfl rfl
  obtain rfl : idx = j := not_not.1 other
  have loop : Wait.InLoop (s.wait idx).nvm := by
    show Wait.InLoop (s.pipe.station idx).nvm
    cases at_ : (s.pipe.station idx).nvm with
    | poll => exact .poll
    | doing => exact .doing _ _
    | full task => exact absurd at_ (plain.1 task)
    | migrating task => exact absurd at_ (plain.2 task)
  have works {station : Station} (stations : pipe.station = Function.update s.pipe.station idx station)
      (ssd : station.ssd = (s.pipe.station idx).ssd)
      (queue : station.ssdQueue = (s.pipe.station idx).ssdQueue) (after : Wait.InLoop station.nvm) :
      Wait.Step capacity (s.wait idx) (wait { s with pipe := pipe } idx) := by
    refine step_here (t := { s with pipe := pipe }) stations ?_
    rw [ssd, queue]
    exact .work loop after
  cases step with
  | turn poll => exact works rfl rfl rfl loop
  | nvmTask _ takes | ssdTask _ takes | noTask _ takes =>
      exact works rfl takes.ssd.1 takes.ssd.2 (.doing _ _)
  | act | nvmRead | nvmWrite => exact works rfl rfl rfl (.doing _ _)
  | finish => exact works rfl rfl rfl .poll
  | full _ takes =>
      refine step_here rfl ?_
      dsimp only
      rw [takes.ssd.1, takes.ssd.2]
      exact .full _ loop
  | postSsd doing =>
      exact step_here rfl (.post loop (.doing _ _) (Pipeline.post_room doing stepped))
  | beginMigration full => exact absurd full (plain.1 _)
  | endMigration migrating => exact absurd migrating (plain.2 _)

/-- Outside the handshakes. -/
theorem pipe_waits {turn : Pipeline.Turn} {pipe : Pipeline} (plain : s.Plain turn)
    (stepped : s.pipe.step submitQueueNum capacity turn = some pipe) :
    Wait.Step capacity (s.wait idx) (wait { s with pipe := pipe } idx) := by
  cases Pipeline.step_cases stepped with
  | front step =>
      cases step with
      | post | free | skip | schedule => exact .aside
      | @toNvm task rest hand inside =>
          by_cases here : idx = ⟨task.queueIdx, inside⟩
          · subst here
            exact step_here rfl .aside
          · exact step_other rfl here rfl rfl rfl
      | @toBuffer j task rest hand =>
          by_cases here : idx = j
          · subst here
            exact step_here rfl .aside
          · exact step_other rfl here rfl rfl rfl
  | nvm j is step =>
      subst is
      exact nvm_waits plain stepped step
  | ssd j is step =>
      subst is
      obtain ⟨answer, busy⟩ := plain
      by_cases other : idx ≠ j
      · cases step <;> exact step_other rfl other rfl rfl rfl
      obtain rfl : idx = j := not_not.1 other
      cases step with
      | take poll => exact absurd poll busy
      | stage execute =>
          exact step_here rfl (.stage answer execute)
      | move staged =>
          exact step_here rfl (.move answer staged)
      | count moved =>
          exact step_here rfl (.count answer moved)
  | migrate _ _ _ _ result =>
      subst result
      exact .aside

/-- **To the two workers of a segment a step of any thread is one of these.** -/
theorem step_waits {turn : Pipeline.Turn} (stepped : s.step submitQueueNum capacity turn = some t)
    (idx : SegIdx) : Wait.Step capacity (s.wait idx) (t.wait idx) := by
  cases step_cases stepped with
  | pipe plain moved => exact pipe_waits plain moved
  | lock | finish | thread => exact .aside
  | @test j task full waits =>
      by_cases here : idx = j
      · subst here
        have step : Wait.Step capacity (s.wait idx) { s.wait idx with waited := s.queueEmpty idx } :=
          .test full waits
        simpa only [wait, Function.update_self] using step
      · refine step_aside ?_
        simp only [wait, Function.update_of_ne here]
  | @begin j task rounds pipe full waited _ moved =>
      simp only [Pipeline.step, Pipeline.nvmStep, full, Pipeline.beginMigration] at moved
      split at moved
      · cases moved
        by_cases here : idx = j
        · subst here
          refine step_here rfl ?_
          dsimp only
          rw [Function.update_self]
          exact .begin full waited
        · exact step_other rfl here rfl rfl (Function.update_of_ne here ..)
      · cases moved
  | @unlock j task rounds pipe migrating _ moved =>
      simp only [Pipeline.step, Pipeline.nvmStep, migrating, Pipeline.endMigration] at moved
      obtain ⟨⟨_, pc⟩, -, moved⟩ := Option.bind_eq_some_iff.1 moved
      split at moved
      · rcases Pipeline.resume_cases moved with ⟨md, actions, ret, -, rfl⟩ | ⟨full, -⟩
        · by_cases here : idx = j
          · subst here
            exact step_here rfl (.leave migrating (.doing _ _))
          · exact step_other rfl here rfl rfl rfl
        · exact absurd full (Pipeline.afterMigration_ne_full _ _ _)
      · cases moved
  | @set j empty answer =>
      by_cases here : idx = j
      · subst here
        have step : Wait.Step capacity (s.wait idx)
            { s.wait idx with queueEmpty := empty, answer := none } := .set answer
        simpa only [wait, Function.update_self] using step
      · refine step_aside ?_
        simp only [wait, Function.update_of_ne here]
  | @found j answer poll empty =>
      by_cases here : idx = j
      · subst here
        have step : Wait.Step capacity (s.wait idx) { s.wait idx with answer := some true } :=
          .found answer poll empty
        simpa only [wait, Function.update_self] using step
      · refine step_aside ?_
        simp only [wait, Function.update_of_ne here]
  | @take j pipe answer poll moved =>
      simp only [Pipeline.step, Pipeline.ssdStep, poll] at moved
      split at moved
      · cases moved
      · rename_i task rest queue
        cases moved
        by_cases here : idx = j
        · subst here
          refine step_here rfl ?_
          dsimp only
          rw [Function.update_self]
          exact .take answer poll queue
        · exact step_other rfl here rfl (Function.update_of_ne here ..) rfl

end

end Joint

namespace Wait

/-- The nvm_worker, as `QueueEmpty` has it. -/
def nvmPc (v : Wait) : QueueEmpty.NvmPc :=
  match v.nvm with
  | .poll | .doing .. => .running
  | .full _ => if v.waited then .migrating else .waiting
  | .migrating _ => .migrating

/-- The ssd_worker, as `QueueEmpty` has it. -/
def ssdPc (v : Wait) : QueueEmpty.SsdPc :=
  match v.answer, v.ssd with
  | none, .poll => .poll
  | none, .execute task => .execute task
  | none, .staged task | none, .moved task => .staged task
  | some _, .execute task | some _, .staged task | some _, .moved task => .dequeued task
  | some _, .poll => .foundEmpty

/-- What `QueueEmpty` has of the segment; what the workers have noted fits where they are. -/
structure Shows (v : Wait) (q : QueueEmpty.State) : Prop where
  waited : v.waited = true → ∃ task, v.nvm = .full task
  empty : v.answer = some true → v.ssd = .poll
  found : v.answer = some false → ∃ task, v.ssd = .execute task
  queue : q.queue = v.queue
  queueEmpty : q.queueEmpty = v.queueEmpty
  nvm : q.nvm = v.nvmPc
  ssd : q.ssd = v.ssdPc

section

variable {capacity : Nat} {idx : SegIdx} {v w : Wait} {q : QueueEmpty.State}

theorem InLoop.running (loop : InLoop v.nvm) : v.nvmPc = .running := by
  unfold nvmPc
  cases at_ : v.nvm with
  | poll | doing => rfl
  | full | migrating =>
      rw [at_] at loop
      cases loop

theorem Shows.waits (shows : v.Shows q) (loop : InLoop v.nvm) : v.waited = false := by
  refine Bool.eq_false_of_not_eq_true fun waited => ?_
  obtain ⟨task, full⟩ := shows.waited waited
  rw [full] at loop
  cases loop

/-- What comes after a step is what comes after some of `QueueEmpty`. -/
def Follows (capacity : Nat) (idx : SegIdx) (q : QueueEmpty.State) (w : Wait) : Prop :=
  ∃ labels q', exec (QueueEmpty.step capacity idx) q labels = some q' ∧ w.Shows q'

theorem Follows.none (shows : w.Shows q) : Follows capacity idx q w := ⟨[], q, rfl, shows⟩

theorem Follows.one {label : QueueEmpty.Label} {q' : QueueEmpty.State}
    (stepped : QueueEmpty.step capacity idx q label = some q') (shows : w.Shows q') :
    Follows capacity idx q w := ⟨[label], q', exec_cons_eq_some.2 ⟨q', stepped, rfl⟩, shows⟩

theorem Shows.step (shows : v.Shows q) (step : Step capacity v w) : Follows capacity idx q w := by
  cases step with
  | aside => exact .none shows
  | @work pc before after =>
      have waits := shows.waits before
      refine .none { shows with
        waited := fun waited => ?_
        nvm := ?_ }
      · rw [waits] at waited
        cases waited
      · rw [shows.nvm, before.running, InLoop.running (v := { v with nvm := pc }) after]
  | full task before =>
      have waits := shows.waits before
      have entered : QueueEmpty.step capacity idx q .enter = some { q with nvm := .waiting } :=
        if_pos (shows.nvm.trans before.running)
      refine .one entered { shows with
        waited := fun _ => ⟨task, rfl⟩
        nvm := ?_ }
      simp only [nvmPc, waits, Bool.false_eq_true, if_false]
  | @post pc task before after room =>
      have waits := shows.waits before
      have running := shows.nvm.trans before.running
      have posted : QueueEmpty.step capacity idx q (.post task) = some { q with
          queue := q.queue ++ [task]
          posted := q.posted ++ [task]
          sinceEmpty := q.sinceEmpty ++ [task] } := if_pos ⟨running, shows.queue ▸ room⟩
      refine .one posted { shows with
        waited := fun waited => ?_
        queue := congrArg (· ++ [task]) shows.queue
        nvm := ?_ }
      · rw [waits] at waited
        cases waited
      · exact running.trans (InLoop.running (v := { v with nvm := pc }) after).symm
  | @test task full waits =>
      have waiting : q.nvm = .waiting := by
        simp only [shows.nvm, nvmPc, full, waits, Bool.false_eq_true, if_false]
      have tested : QueueEmpty.step capacity idx q .test =
          some { q with nvm := if q.queueEmpty then .migrating else .waiting } := if_pos waiting
      refine .one tested { shows with
        waited := fun _ => ⟨task, full⟩
        nvm := ?_ }
      simp only [nvmPc, full, shows.queueEmpty]
  | @begin task full waited =>
      refine .none { shows with
        waited := nofun
        nvm := ?_ }
      simp only [shows.nvm, nvmPc, full, waited, if_true]
  | @leave task pc migrating after =>
      have left : QueueEmpty.step capacity idx q .leave = some { q with nvm := .running } :=
        if_pos (by simp only [shows.nvm, nvmPc, migrating])
      refine .one left { shows with
        waited := fun waited => ?_
        nvm := (InLoop.running (v := { v with nvm := pc }) after).symm }
      obtain ⟨task, full⟩ := shows.waited waited
      rw [migrating] at full
      cases full
  | @set empty answer =>
      cases empty with
      | true =>
          have poll := shows.empty answer
          have found : q.ssd = .foundEmpty := by simp only [shows.ssd, ssdPc, answer, poll]
          refine .one (QueueEmpty.setFlag_empty found) { shows with
            empty := nofun
            found := nofun
            queueEmpty := rfl
            ssd := ?_ }
          simp only [ssdPc, poll]
      | false =>
          obtain ⟨task, execute⟩ := shows.found answer
          have dequeued : q.ssd = .dequeued task := by simp only [shows.ssd, ssdPc, answer, execute]
          refine .one (QueueEmpty.setFlag_task dequeued) { shows with
            empty := nofun
            found := nofun
            queueEmpty := rfl
            ssd := ?_ }
          simp only [ssdPc, execute]
  | found answer poll empty =>
      have polls : q.ssd = .poll := by simp only [shows.ssd, ssdPc, answer, poll]
      refine .one (QueueEmpty.poll_empty polls (shows.queue.trans empty)) { shows with
        empty := fun _ => poll
        found := nofun
        ssd := ?_ }
      simp only [ssdPc, poll]
  | @take task rest answer poll queue =>
      have polls : q.ssd = .poll := by simp only [shows.ssd, ssdPc, answer, poll]
      exact .one (QueueEmpty.poll_task polls (shows.queue.trans queue)) { shows with
        empty := nofun
        found := fun _ => ⟨task, rfl⟩
        queue := rfl
        ssd := rfl }
  | @stage task answer execute =>
      have executes : q.ssd = .execute task := by simp only [shows.ssd, ssdPc, answer, execute]
      refine .one (QueueEmpty.stage_task executes) { shows with
        empty := fun found => nomatch answer.symm.trans found
        found := fun found => nomatch answer.symm.trans found
        ssd := ?_ }
      simp only [ssdPc, answer]
  | @move task answer staged =>
      refine .none { shows with
        empty := fun found => nomatch answer.symm.trans found
        found := fun found => nomatch answer.symm.trans found
        ssd := ?_ }
      simp only [shows.ssd, ssdPc, answer, staged]
  | @count task answer moved =>
      have staged : q.ssd = .staged task := by simp only [shows.ssd, ssdPc, answer, moved]
      refine .one (QueueEmpty.complete_task staged) { shows with
        empty := fun _ => rfl
        found := fun found => nomatch answer.symm.trans found
        ssd := ?_ }
      simp only [ssdPc, answer]

end

end Wait

/-- **Of the wait of a segment, a run of all threads is a run of `QueueEmpty`.** -/
theorem Joint.exec_queueEmpty {submitQueueNum capacity : Nat} {m : Machine} {region : Nat → Block}
    {requests : Nat → List Request} {segmentIdx : SegIdx} {turns : List Pipeline.Turn} {s : Joint}
    (ran : exec (Joint.step submitQueueNum capacity) (.start m region requests segmentIdx) turns =
      some s) (idx : SegIdx) :
    ∃ labels q, exec (QueueEmpty.step capacity idx) (QueueEmpty.init m) labels = some q ∧
      (s.wait idx).Shows q := by
  refine exec_simulated (R := fun s q => (s.wait idx).Shows q)
    (fun s q turn t shows stepped => shows.step (step_waits stepped idx)) ?_ ran
  exact
    { waited := nofun
      empty := nofun
      found := nofun
      queue := rfl
      queueEmpty := rfl
      nvm := rfl
      ssd := rfl }

/-- While an ssd_worker is at a task, its flag is down. -/
theorem Joint.down_of_busy {submitQueueNum capacity : Nat} {m : Machine} {region : Nat → Block}
    {requests : Nat → List Request} {segmentIdx : SegIdx} {turns : List Pipeline.Turn} {s : Joint}
    (ran : exec (Joint.step submitQueueNum capacity) (.start m region requests segmentIdx) turns =
      some s) {idx : SegIdx} (answer : s.answer idx = none)
    (busy : (s.pipe.station idx).ssd ≠ .poll) : s.queueEmpty idx = false := by
  obtain ⟨labels, q, ran', shows⟩ := Joint.exec_queueEmpty ran idx
  have inv := QueueEmpty.Inv.exec ran'
  refine shows.queueEmpty.symm.trans (inv.lowered ?_)
  rw [shows.ssd, Wait.ssdPc, show (s.wait idx).answer = none from answer]
  cases at_ : (s.wait idx).ssd with
  | poll => exact absurd at_ busy
  | execute | staged | moved => trivial

end Mixdk
