/-
# Async.Settle -- where the work that is left leads

`System.settled` is the machine with everything done that the workers have already
begun: the ssd_workers' tasks in hand and in the queues, and the rest of the
nvm_workers' actions.  By `Kept`, what is left of different segments, and actions and
SSD tasks of one segment, commute; so a worker's step does not change where things
settle, except when an nvm_worker begins its next task.  Then the settled machine
moves by that whole task, with the SSD's part done at once: `syncTask`, the
synchronous execution.
-/
import Mixdk.Async.System
import Mixdk.Async.Subtask
import Mixdk.Lib.Lanes

namespace Mixdk

open Transition Lanes

set_option autoImplicit false

/-! ## Synchronous execution -/

namespace Machine

/-- One action; a task posted to the SSD queue is executed at once. -/
def syncAction (idx : SegIdx) (m : Machine) : Action → Machine
  | .postTaskToSsd task => m.ssdWorkerTask idx task
  | a => m.perform a

def syncFinish (m : Machine) (idx : SegIdx) : WriteResult → Option Machine
  | .done md actions _ => some (actions.foldl (syncAction idx) { m with md := md })
  | _ => none

/-- One task of a buffer queue, executed synchronously. -/
def syncTask (m : Machine) (x : SegIdx × IoTask) : Option Machine :=
  m.syncFinish x.1 (nvmWorkerSsdTask m.md x.2 x.1)

/-- A task whose segment is full and has to be migrated first. -/
def syncMigrate (m : Machine) (idx : SegIdx) (task : IoTask)
    (sched : List (Fin MIGRATE_THREAD_NUM)) : Option Machine :=
  match nvmWorkerSsdTask m.md task idx with
  | .full =>
      (mixMigrateSegment m idx sched).bind fun m =>
        m.syncFinish idx (redirectWriteAfterMigration m.md task idx).counted
  | _ => none

end Machine

/-- Synchronous actions are their operations, one after another. -/
theorem syncActions_eq (idx : SegIdx) (actions : List Action) (m : Machine) :
    actions.foldl (Machine.syncAction idx) m =
      runAll Work.act m ((works actions).map (Prod.mk idx)) := by
  induction actions generalizing m with
  | nil => rfl
  | cons a actions ih =>
      rw [List.foldl_cons, ih]
      simp only [works, List.flatMap_cons, List.map_append]
      rw [runAll_append]
      congr 1
      cases a with
      | postTaskToSsd task => exact (Machine.ssdTaskComplete_stage m idx task).symm
      | readFromBuffer | writeToBuffer | bufferClear | addRet | nvmWriteBlockCompleted => rfl

namespace Machine

def setMd (m : Machine) (md : Metadata) : Machine := { m with md := md }

@[simp] theorem setMd_md (m : Machine) (md : Metadata) : (m.setMd md).md = md := rfl

@[simp] theorem setMd_setMd (m : Machine) (md md' : Metadata) :
    (m.setMd md).setMd md' = m.setMd md' := rfl

end Machine

theorem runAll_setMd (ops : List (SegIdx × Work)) (m : Machine) (md : Metadata) :
    runAll Work.act (m.setMd md) ops = (runAll Work.act m ops).setMd md :=
  runAll_comm (f := fun m => m.setMd md) (fun a _ => fun m => Work.act_setMd a m md) m

@[simp] theorem runAll_md (ops : List (SegIdx × Work)) (m : Machine) :
    (runAll Work.act m ops).md = m.md := by
  induction ops generalizing m with
  | nil => rfl
  | cons x ops ih => rw [runAll_cons, ih, Work.act_md]

/-! ## What is left -/

def SsdPc.works : SsdPc → List Work
  | .poll => []
  | .execute task => [.stage task, .complete task]
  | .staged task => [.complete task]

def Lane.works (lane : Lane) : List Work :=
  lane.ssd.works ++ (Mixdk.works (lane.ssdQueue.map .postTaskToSsd) ++ Mixdk.works lane.actions)

def allSegments : List SegIdx := List.finRange 4

namespace System

/-- The work begun in each segment. -/
def left (s : System) (idx : SegIdx) : List Work := (s.lane idx).works

/-- The tasks of a segment that its nvm_worker has not begun. -/
def waiting (s : System) (idx : SegIdx) : List IoTask :=
  (s.lane idx).bufferQueue ++ (s.todo.filter fun x => x.1 = idx).map Prod.snd

/-- The machine with all the work done that has been begun. -/
def settled (s : System) : Machine := settle Work.act allSegments s.m s.left

end System

/-- The memory claims of a segment. -/
def claims (left : SegIdx → List Work) (waiting : SegIdx → List IoTask) (idx : SegIdx) :
    List MemClaim :=
  (left idx).map Work.claim ++ (waiting idx).map taskClaim

/-- What the workers have to keep for their order not to matter. -/
structure Kept (P : Nat) (left : SegIdx → List Work) (waiting : SegIdx → List IoTask) : Prop where
  inSegment : ∀ idx, ∀ w ∈ left idx, w.InSegment P idx
  tasks : ∀ idx, ∀ t ∈ waiting idx, InRange t ∧ InStripe idx t
  order : ∀ idx, (left idx).Pairwise Work.Before
  ahead : ∀ idx, ∀ w ∈ left idx, ∀ t ∈ waiting idx, w.claim.Apart (taskClaim t)
  behind : ∀ idx, (waiting idx).Pairwise fun t u => (taskClaim t).Apart (taskClaim u)
  across : ∀ i j, i ≠ j → ∀ c ∈ claims left waiting i, ∀ d ∈ claims left waiting j, c.Apart d

section

variable {P : Nat} {left : SegIdx → List Work} {waiting : SegIdx → List IoTask} {idx : SegIdx}
  {w : Work} {xs ys : List Work} {task : IoTask} {rest : List IoTask} {actions : List Action}

theorem mem_claims_left (member : w ∈ left idx) : w.claim ∈ claims left waiting idx :=
  List.mem_append_left _ (List.mem_map.2 ⟨w, member, rfl⟩)

theorem Kept.commute (kept : Kept P left waiting) {i j : SegIdx} (other : i ≠ j) {x y : Work}
    (here : x ∈ left i) (there : y ∈ left j) :
    Function.Commute (Work.act (i, x)) (Work.act (j, y)) :=
  Work.commute other (kept.inSegment i x here) (kept.inSegment j y there)
    (kept.across i j other _ (mem_claims_left here) _ (mem_claims_left there))

/-- A piece of a segment's work is done. -/
theorem Kept.take (kept : Kept P left waiting) (lane : left idx = xs ++ w :: ys) :
    Kept P (Function.update left idx (xs ++ ys)) waiting := by
  have less : ∀ j, (Function.update left idx (xs ++ ys) j).Sublist (left j) := by
    intro j
    by_cases same : j = idx
    · subst same
      rw [Function.update_self, lane]
      exact (List.sublist_cons_self w ys).append_left xs
    · rw [Function.update_of_ne same]
  have claims_less : ∀ j, ∀ c ∈ claims (Function.update left idx (xs ++ ys)) waiting j,
      c ∈ claims left waiting j := by
    intro j c member
    rcases List.mem_append.1 member with mine | theirs
    · obtain ⟨x, there, rfl⟩ := List.mem_map.1 mine
      exact mem_claims_left ((less j).subset there)
    · exact List.mem_append_right _ theirs
  refine ⟨?_, kept.tasks, ?_, ?_, kept.behind, ?_⟩
  · exact fun j x member => kept.inSegment j x ((less j).subset member)
  · exact fun j => (kept.order j).sublist (less j)
  · exact fun j x member => kept.ahead j x ((less j).subset member)
  · intro i j other c here d there
    exact kept.across i j other c (claims_less i c here) d (claims_less j d there)

/-- A segment's next task is begun. -/
theorem Kept.begin (kept : Kept P left waiting) (next : waiting idx = task :: rest)
    (prepared : Prepared P idx task actions) :
    Kept P (Function.update left idx (left idx ++ works actions))
      (Function.update waiting idx rest) := by
  have mine : task ∈ waiting idx := by
    rw [next]
    exact List.mem_cons_self
  have less : ∀ j, (Function.update waiting idx rest j).Sublist (waiting j) := by
    intro j
    by_cases same : j = idx
    · subst same
      rw [Function.update_self, next]
      exact List.sublist_cons_self task rest
    · rw [Function.update_of_ne same]
  have cases_left : ∀ j x, x ∈ Function.update left idx (left idx ++ works actions) j →
      x ∈ left j ∨ (j = idx ∧ x ∈ works actions) := by
    intro j x member
    by_cases same : j = idx
    · subst same
      rw [Function.update_self] at member
      exact (List.mem_append.1 member).imp_right fun new => ⟨rfl, new⟩
    · rw [Function.update_of_ne same] at member
      exact .inl member
  -- every claim of the new state is an old one, or a part of the task's
  have claims_within : ∀ j, ∀ c ∈ claims (Function.update left idx (left idx ++ works actions))
      (Function.update waiting idx rest) j,
      ∃ d ∈ claims left waiting j, c.Within d := by
    intro j c member
    rcases List.mem_append.1 member with here | there
    · obtain ⟨x, inside, rfl⟩ := List.mem_map.1 here
      rcases cases_left j x inside with old | ⟨rfl, new⟩
      · exact ⟨_, mem_claims_left old, .refl _⟩
      · exact ⟨taskClaim task, List.mem_append_right _ (List.mem_map.2 ⟨task, mine, rfl⟩),
          prepared.within x new⟩
    · obtain ⟨t, inside, rfl⟩ := List.mem_map.1 there
      exact ⟨_, List.mem_append_right _ (List.mem_map.2 ⟨t, (less j).subset inside, rfl⟩),
        .refl _⟩
  have apart_rest : ∀ t ∈ rest, (taskClaim task).Apart (taskClaim t) := by
    have behind := kept.behind idx
    rw [next] at behind
    exact (List.pairwise_cons.1 behind).1
  refine ⟨?_, ?_, ?_, ?_, ?_, ?_⟩
  · intro j x member
    rcases cases_left j x member with old | ⟨rfl, new⟩
    · exact kept.inSegment j x old
    · exact prepared.inSegment x new
  · exact fun j t member => kept.tasks j t ((less j).subset member)
  · intro j
    by_cases same : j = idx
    · subst same
      rw [Function.update_self]
      refine List.pairwise_append.2 ⟨kept.order j, prepared.apart, ?_⟩
      intro x old y new _
      have apart := kept.ahead j x old task mine
      exact ((prepared.within y new).apart apart.symm).symm
    · rw [Function.update_of_ne same]
      exact kept.order j
  · intro j x member t later
    rcases cases_left j x member with old | ⟨rfl, new⟩
    · exact kept.ahead j x old t ((less j).subset later)
    · rw [Function.update_self] at later
      exact (prepared.within x new).apart (apart_rest t later)
  · exact fun j => (kept.behind j).sublist (less j)
  · intro i j other c here d there
    obtain ⟨c', old, part⟩ := claims_within i c here
    obtain ⟨d', old', part'⟩ := claims_within j d there
    exact (part'.apart (part.apart (kept.across i j other c' old d' old')).symm).symm

/-! ## Settling -/

theorem mem_segments (idx : SegIdx) : idx ∈ allSegments := List.mem_finRange idx

theorem nodup_segments : allSegments.Nodup := List.nodup_finRange 4

/-- An operation that is first in its lane, or an action with only SSD work before it, can be
done now. -/
theorem Kept.settle_take (kept : Kept P left waiting) (lane : left idx = xs ++ w :: ys)
    (front : xs = [] ∨ (∃ a, w = .action a) ∧ ∀ x ∈ xs, ∀ b, x ≠ .action b) (m : Machine) :
    settle Work.act allSegments m left =
      settle Work.act allSegments (Work.act (idx, w) m)
        (Function.update left idx (xs ++ ys)) := by
  have here : w ∈ left idx := by
    rw [lane]
    exact List.mem_append_right _ List.mem_cons_self
  apply Lanes.settle_take nodup_segments (mem_segments idx) lane
  · intro j other x there
    exact kept.commute other there here
  · intro x member
    rcases front with none | ⟨⟨a, rfl⟩, ssd⟩
    · rw [none] at member
      cases member
    · have there : x ∈ left idx := by
        rw [lane]
        exact List.mem_append_left _ member
      have order := kept.order idx
      rw [lane] at order
      have before := (List.pairwise_append.1 order).2.2 x member _ List.mem_cons_self
      exact Work.commute_action (ssd x member) (kept.inSegment idx x there)
        (kept.inSegment idx _ here) (before ⟨a, rfl⟩)

/-- A task begun adds its actions at the end of everything. -/
theorem Kept.settle_begin (kept : Kept P left waiting) (next : waiting idx = task :: rest)
    (prepared : Prepared P idx task actions) (m : Machine) (md : Metadata) :
    settle Work.act allSegments (m.setMd md)
        (Function.update left idx (left idx ++ works actions)) =
      actions.foldl (Machine.syncAction idx) ((settle Work.act allSegments m left).setMd md) := by
  have after := kept.begin next prepared
  rw [settle_append nodup_segments (mem_segments idx), syncActions_eq]
  · rw [settle, runAll_setMd]
    rfl
  · intro j other x there y new
    apply after.commute other
    · rwa [Function.update_of_ne other]
    · rw [Function.update_self]
      exact List.mem_append_right _ new

end

/-! ## Steps -/

namespace System

variable {s s' : System} {idx : SegIdx}

theorem settled_md (s : System) : s.settled.md = s.m.md := runAll_md _ _

theorem left_update (s : System) (idx : SegIdx) (lane : Lane) :
    (fun j => (Function.update s.lane idx lane j).works) =
      Function.update s.left idx lane.works := by
  funext j
  by_cases same : j = idx
  · subst same
    rw [Function.update_self, Function.update_self]
  · rw [Function.update_of_ne same, Function.update_of_ne same]
    rfl

theorem waiting_update (s : System) (idx : SegIdx) (lane : Lane) :
    (fun j => (Function.update s.lane idx lane j).bufferQueue ++
        (s.todo.filter fun x => x.1 = j).map Prod.snd) =
      Function.update s.waiting idx
        (lane.bufferQueue ++ (s.todo.filter fun x => x.1 = idx).map Prod.snd) := by
  funext j
  by_cases same : j = idx
  · subst same
    rw [Function.update_self, Function.update_self]
  · rw [Function.update_of_ne same, Function.update_of_ne same]
    rfl

/-- The index is in order, and what is left commutes as it should. -/
structure Ready (P : Nat) (s : System) : Prop where
  running : Running P s.m
  kept : Kept P s.left s.waiting

/-- What a step comes to: work that was begun goes on, or an nvm_worker begins a task. -/
inductive Progress (s s' : System) : Thread → Prop
  | work {thread : Thread} (settled : s'.settled = s.settled) (waiting : s'.waiting = s.waiting) :
      Progress s s' thread
  | begins {idx : SegIdx} {task : IoTask} {queue later : List IoTask}
      (free : (s.lane idx).actions = []) (head : (s.lane idx).bufferQueue = task :: queue)
      (next : s.waiting idx = task :: later)
      (waiting : s'.waiting = Function.update s.waiting idx later)
      (sync : s.settled.syncTask (idx, task) = some s'.settled) : Progress s s' (.nvm idx)

variable {P capacity : Nat}

/-- A step that leaves machine, work and tasks as they are. -/
theorem Ready.same {thread : Thread} (ready : Ready P s) (m : s'.m = s.m)
    (left : s'.left = s.left) (waiting : s'.waiting = s.waiting) :
    Ready P s' ∧ Progress s s' thread := by
  refine ⟨⟨by rw [m]; exact ready.running, by rw [left, waiting]; exact ready.kept⟩, ?_⟩
  refine .work ?_ waiting
  rw [settled, settled, m, left]

/-- A step that does one operation. -/
theorem Ready.take {thread : Thread} (ready : Ready P s) {xs ys : List Work} {w : Work}
    (lane : s.left idx = xs ++ w :: ys)
    (front : xs = [] ∨ (∃ a, w = .action a) ∧ ∀ x ∈ xs, ∀ b, x ≠ .action b)
    (m : s'.m = Work.act (idx, w) s.m) (left : s'.left = Function.update s.left idx (xs ++ ys))
    (waiting : s'.waiting = s.waiting) : Ready P s' ∧ Progress s s' thread := by
  refine ⟨⟨?_, ?_⟩, .work ?_ waiting⟩
  · have md : s'.m.md = s.m.md := by rw [m, Work.act_md]
    exact ⟨by rw [md]; exact ready.running.all, by rw [md]; exact ready.running.perBlockNum⟩
  · rw [left, waiting]
    exact ready.kept.take lane
  · rw [settled, settled, m, left, ← ready.kept.settle_take lane front]

/-- A task begun on an index that its result leaves in order. -/
theorem begin_settled (kept : Kept P s.left s.waiting) {task : IoTask} {rest : List IoTask}
    {md : Metadata} {actions : List Action} {ret : Nat}
    (queue : (s.lane idx).bufferQueue = task :: rest) (free : (s.lane idx).actions = [])
    (prepared : Prepared P idx task actions) (all : AllIndexed md) (size : md.perBlockNum = P)
    (begun : s.begin idx rest (.done md actions ret) = some s') :
    Ready P s' ∧ ∃ later, s.waiting idx = task :: later ∧
      s'.waiting = Function.update s.waiting idx later ∧
      s.settled.syncFinish idx (.done md actions ret) = some s'.settled := by
  obtain rfl := Option.some.inj begun
  have next : s.waiting idx =
      task :: (rest ++ (s.todo.filter fun x => x.1 = idx).map Prod.snd) := by
    rw [waiting, queue, List.cons_append]
  have left' : left { s with
      m := { s.m with md := md }
      lane := Function.update s.lane idx
        { s.lane idx with bufferQueue := rest, actions := actions } } =
      Function.update s.left idx (s.left idx ++ works actions) := by
    refine (left_update s idx _).trans ?_
    congr 1
    simp only [left, Lane.works, free, works, List.flatMap_nil, List.append_nil,
      List.append_assoc]
  have waiting' : waiting { s with
      m := { s.m with md := md }
      lane := Function.update s.lane idx
        { s.lane idx with bufferQueue := rest, actions := actions } } =
      Function.update s.waiting idx (rest ++ (s.todo.filter fun x => x.1 = idx).map Prod.snd) :=
    waiting_update s idx _
  refine ⟨⟨⟨all, size⟩, ?_⟩, _, next, waiting', ?_⟩
  · rw [left', waiting']
    exact kept.begin next prepared
  · rw [settled, settled, left']
    exact congrArg some (kept.settle_begin next prepared s.m md).symm

theorem Ready.scheduler (ready : Ready P s) (stepped : s.schedulerStep capacity = some s') :
    Ready P s' ∧ Progress s s' .scheduler := by
  simp only [schedulerStep] at stepped
  split at stepped
  · cases stepped
  · rename_i idx task rest posts
    split at stepped
    · obtain rfl := Option.some.inj stepped
      refine ready.same rfl ?_ ?_
      · refine (left_update s idx _).trans ?_
        exact Function.update_eq_self idx s.left
      · funext j
        by_cases same : j = idx
        · subst same
          simp [waiting, posts]
        · have other : ¬ idx = j := fun eq => same eq.symm
          simp [waiting, posts, Function.update_of_ne same, other]
    · cases stepped

/-- The work of an ssd_worker: halves of tasks. -/
theorem ssd_not_action (lane : Lane) :
    ∀ x ∈ lane.ssd.works ++ Mixdk.works (lane.ssdQueue.map .postTaskToSsd), ∀ b,
      x ≠ .action b := by
  intro x member b
  rintro rfl
  rcases List.mem_append.1 member with hand | queued
  · cases at_ : lane.ssd with
    | poll | execute _ | staged _ => simp [at_, SsdPc.works] at hand
  · obtain ⟨a, posted, inside⟩ := List.mem_flatMap.1 queued
    obtain ⟨task, -, rfl⟩ := List.mem_map.1 posted
    simp [Action.works] at inside

theorem Ready.nvm (ready : Ready P s) (stepped : s.nvmStep capacity idx = some s') :
    Ready P s' ∧ Progress s s' (.nvm idx) := by
  simp only [nvmStep] at stepped
  split at stepped
  · rename_i free
    split at stepped
    · cases stepped
    · -- the next task is begun
      rename_i task rest queue
      have member : task ∈ s.waiting idx := by
        rw [waiting, queue]
        exact List.mem_append_left _ List.mem_cons_self
      obtain ⟨inRange, stripe⟩ := ready.kept.tasks idx task member
      cases result : nvmWorkerSsdTask s.m.md task idx with
      | done md actions ret =>
          rw [result] at stepped
          have all := ready.running.all
          have prepared := nvmWorkerSsdTask_prepared all inRange stripe result
          obtain ⟨all', size⟩ := nvmWorkerSsdTask_allIndexed all inRange result
          rw [ready.running.perBlockNum] at prepared size
          obtain ⟨ready', later, next, waiting', sync⟩ :=
            begin_settled ready.kept queue free prepared all' size stepped
          refine ⟨ready', .begins free queue next waiting' ?_⟩
          rw [Machine.syncTask, settled_md, result]
          exact sync
      | full | spins =>
          rw [result] at stepped
          cases stepped
  · -- a task goes to the SSD queue
    rename_i task rest acts
    split at stepped
    · obtain rfl := Option.some.inj stepped
      refine ready.same rfl ?_ ?_
      · refine (left_update s idx _).trans ?_
        rw [Function.update_eq_self_iff]
        simp [left, Lane.works, acts, Mixdk.works, List.flatMap_append]
      · refine (waiting_update s idx _).trans ?_
        exact Function.update_eq_self idx s.waiting
    · cases stepped
  · -- an action is carried out
    rename_i a rest notPost acts
    obtain rfl := Option.some.inj stepped
    have single : a.works = [.action a] := by
      cases a with
      | postTaskToSsd task => exact absurd rfl (notPost task)
      | readFromBuffer | writeToBuffer | bufferClear | addRet | nvmWriteBlockCompleted => rfl
    have lane : s.left idx = ((s.lane idx).ssd.works ++
        Mixdk.works ((s.lane idx).ssdQueue.map .postTaskToSsd)) ++
          .action a :: Mixdk.works rest := by
      simp [left, Lane.works, acts, Mixdk.works, single]
    refine ready.take lane (.inr ⟨⟨a, rfl⟩, ssd_not_action _⟩) rfl ?_ ?_
    · refine (left_update s idx _).trans ?_
      simp only [Lane.works, List.append_assoc]
    · refine (waiting_update s idx _).trans ?_
      exact Function.update_eq_self idx s.waiting

theorem Ready.ssd (ready : Ready P s) (stepped : s.ssdStep idx = some s') :
    Ready P s' ∧ Progress s s' (.ssd idx) := by
  have tasks : ∀ lane : Lane, lane.bufferQueue = (s.lane idx).bufferQueue →
      Function.update s.waiting idx
        (lane.bufferQueue ++ (s.todo.filter fun x => x.1 = idx).map Prod.snd) = s.waiting := by
    intro lane same
    rw [same]
    exact Function.update_eq_self idx s.waiting
  simp only [ssdStep] at stepped
  split at stepped
  · rename_i polls
    split at stepped
    · cases stepped
    · rename_i task rest queue
      obtain rfl := Option.some.inj stepped
      refine ready.same rfl ?_ ((waiting_update s idx _).trans (tasks _ rfl))
      refine (left_update s idx _).trans ?_
      rw [Function.update_eq_self_iff]
      simp [left, Lane.works, polls, queue, SsdPc.works, Mixdk.works, Action.works]
  · rename_i task executes
    obtain rfl := Option.some.inj stepped
    have lane : s.left idx = [] ++ .stage task :: (.complete task ::
        (Mixdk.works ((s.lane idx).ssdQueue.map .postTaskToSsd) ++
          Mixdk.works (s.lane idx).actions)) := by
      simp [left, Lane.works, executes, SsdPc.works]
    refine ready.take lane (.inl rfl) rfl ?_ ((waiting_update s idx _).trans (tasks _ rfl))
    refine (left_update s idx _).trans ?_
    simp [Lane.works, SsdPc.works]
  · rename_i task staged
    obtain rfl := Option.some.inj stepped
    have lane : s.left idx = [] ++ .complete task ::
        (Mixdk.works ((s.lane idx).ssdQueue.map .postTaskToSsd) ++
          Mixdk.works (s.lane idx).actions) := by
      simp [left, Lane.works, staged, SsdPc.works]
    refine ready.take lane (.inl rfl) rfl ?_ ((waiting_update s idx _).trans (tasks _ rfl))
    refine (left_update s idx _).trans ?_
    simp [Lane.works, SsdPc.works]

/-- **A step of any thread either leaves the settled machine where it is, or moves it by one
task executed synchronously.** -/
theorem Ready.step (ready : Ready P s) {thread : Thread}
    (stepped : s.step capacity thread = some s') : Ready P s' ∧ Progress s s' thread := by
  cases thread with
  | scheduler => exact ready.scheduler stepped
  | nvm idx => exact ready.nvm stepped
  | ssd idx => exact ready.ssd stepped

end System

end Mixdk
