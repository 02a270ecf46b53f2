/-
# Serial.Settle -- where the work that the pipeline has begun leads

`Pipeline.settled` is the storage with everything done that the workers have begun: what the
ssd_workers have in hand and in their queues, and the rest of the nvm_workers' tasks.  `Kept` says
when the order in which the workers do it does not matter.  So a step leaves the settled storage
where it is, but for the step that begins a task: there it moves by that whole task, as
`Storage.serve` executes it (`Ready.step`).

The tasks to come are those in the queues of the stations, and those the scheduler still has to
post (`todo`).
-/
import Mixdk.Serial.Tasks
import Mixdk.Pipeline.Steps
import Mathlib.Data.List.Perm.Basic

namespace Mixdk

open Transition Lanes

set_option autoImplicit false

/-! ## What the workers have to keep -/

/-- What the workers have to keep for their order not to matter; `pending` are the tasks to come,
in any order. -/
structure Orderly (P : Nat) (left : SegIdx → List Chore) (pending : List Post) : Prop where
  inSegment : ∀ idx, ∀ x ∈ left idx, x.InSegment P idx
  suits : ∀ p ∈ pending, p.Suits
  order : ∀ idx, (left idx).Pairwise Chore.Before
  ahead : ∀ idx, ∀ x ∈ left idx, ∀ p ∈ pending,
    x.claim.Apart (taskClaim p.task) ∧ (p.lane.1 ≠ idx → x.nvm.Apart p.nvmClaim)
  behind : pending.Pairwise Post.Apart
  across : ∀ i j, i ≠ j → ∀ x ∈ left i, ∀ y ∈ left j, x.Apart y

namespace Orderly

variable {P : Nat} {left : SegIdx → List Chore} {pending rest : List Post} {idx : SegIdx}
  {x : Chore} {xs ys : List Chore} {p : Post} {d : Storage}

theorem perm (orderly : Orderly P left pending) (same : pending.Perm rest) :
    Orderly P left rest where
  inSegment := orderly.inSegment
  suits := fun p member => orderly.suits p (same.mem_iff.2 member)
  order := orderly.order
  ahead := fun idx x here p member => orderly.ahead idx x here p (same.mem_iff.2 member)
  behind := (same.pairwise_iff fun apart => Post.Apart.symm apart).1 orderly.behind
  across := orderly.across

/-- A piece of a station's work is done. -/
theorem take (orderly : Orderly P left pending) (lane : left idx = xs ++ x :: ys) :
    Orderly P (Function.update left idx (xs ++ ys)) pending := by
  have less : ∀ j, (Function.update left idx (xs ++ ys) j).Sublist (left j) := by
    intro j
    by_cases same : j = idx
    · subst same
      rw [Function.update_self, lane]
      exact (List.sublist_cons_self x ys).append_left xs
    · rw [Function.update_of_ne same]
  refine ⟨?_, orderly.suits, ?_, ?_, orderly.behind, ?_⟩
  · exact fun j y member => orderly.inSegment j y ((less j).subset member)
  · exact fun j => (orderly.order j).sublist (less j)
  · exact fun j y member => orderly.ahead j y ((less j).subset member)
  · intro i j other y here z there
    exact orderly.across i j other y ((less i).subset here) z ((less j).subset there)

/-- A station begins a task to come. -/
theorem begin (orderly : Orderly P left (p :: rest)) (mine : p.lane.1 = idx)
    (carries : Carries P idx p xs) :
    Orderly P (Function.update left idx (left idx ++ xs)) rest := by
  have cases_left : ∀ {j y}, y ∈ Function.update left idx (left idx ++ xs) j →
      y ∈ left j ∨ (j = idx ∧ y ∈ xs) := by
    intro j y member
    by_cases same : j = idx
    · subst same
      rw [Function.update_self] at member
      exact (List.mem_append.1 member).imp_right fun new => ⟨rfl, new⟩
    · rw [Function.update_of_ne same] at member
      exact .inl member
  obtain ⟨first, later⟩ := List.pairwise_cons.1 orderly.behind
  -- what the station had left, and another station's work, is apart from the new chores
  have claims : ∀ {j y z}, y ∈ left j → z ∈ xs → y.claim.Apart z.claim := by
    intro j y z old new
    have apart := (orderly.ahead j y old p List.mem_cons_self).1
    exact ((carries.within z new).apart apart.symm).symm
  have across : ∀ {j y z}, j ≠ idx → y ∈ left j → z ∈ xs → y.Apart z := by
    intro j y z other old new
    have here : p.lane.1 ≠ j := fun same => other (Fin.ext (mine.symm.trans same)).symm
    have apart := (orderly.ahead j y old p List.mem_cons_self).2 here
    exact ⟨claims old new, ((carries.nvm z new).apart apart.symm).symm⟩
  refine ⟨?_, ?_, ?_, ?_, later, ?_⟩
  · intro j y member
    rcases cases_left member with old | ⟨rfl, new⟩
    · exact orderly.inSegment j y old
    · exact carries.inSegment y new
  · exact fun q member => orderly.suits q (List.mem_cons_of_mem p member)
  · intro j
    by_cases same : j = idx
    · subst same
      rw [Function.update_self]
      exact List.pairwise_append.2 ⟨orderly.order j, carries.order,
        fun y old z new _ _ => claims old new⟩
    · rw [Function.update_of_ne same]
      exact orderly.order j
  · intro j y member q later
    rcases cases_left member with old | ⟨rfl, new⟩
    · exact orderly.ahead j y old q (List.mem_cons_of_mem p later)
    · obtain ⟨memory, nvm⟩ := first q later
      refine ⟨(carries.within y new).apart memory, fun other => ?_⟩
      exact (carries.nvm y new).apart (nvm fun same => other (same.symm.trans mine))
  · intro i j other y here z there
    rcases cases_left here with old | ⟨rfl, new⟩
    · rcases cases_left there with old' | ⟨rfl, new'⟩
      · exact orderly.across i j other y old z old'
      · exact across other old new'
    · rcases cases_left there with old' | ⟨rfl, new'⟩
      · exact (across (Ne.symm other) old' new).symm
      · exact absurd rfl other

/-! ## Settling -/

/-- A chore that is first in its station, or a deed with only SSD work before it, can be done
now. -/
theorem settle_take (orderly : Orderly P left pending) (lane : left idx = xs ++ x :: ys)
    (front : xs = [] ∨ (∃ what, x = .deed what) ∧ ∀ y ∈ xs, ∀ what, y ≠ .deed what)
    (d : Storage) :
    settle Chore.act allSegments d left =
      settle Chore.act allSegments (Chore.act (idx, x) d)
        (Function.update left idx (xs ++ ys)) := by
  have here : x ∈ left idx := by
    rw [lane]
    exact List.mem_append_right _ List.mem_cons_self
  apply Lanes.settle_take nodup_segments (mem_segments idx) lane
  · intro j other y there
    exact Chore.commute other (orderly.inSegment j y there) (orderly.inSegment idx x here)
      (orderly.across j idx other y there x here)
  · intro y member
    rcases front with none | ⟨⟨what, rfl⟩, ssd⟩
    · rw [none] at member
      cases member
    · have there : y ∈ left idx := by
        rw [lane]
        exact List.mem_append_left _ member
      have order := orderly.order idx
      rw [lane] at order
      have before := (List.pairwise_append.1 order).2.2 y member _ List.mem_cons_self
      exact Chore.commute_deed (ssd y member) (orderly.inSegment idx y there)
        (orderly.inSegment idx _ here) (before ⟨what, rfl⟩ (ssd y member))

/-- A task begun adds its chores at the end of everything. -/
theorem settle_begin (orderly : Orderly P left (p :: rest)) (mine : p.lane.1 = idx)
    (carries : Carries P idx p xs) (d : Storage) (md : Metadata) :
    settle Chore.act allSegments (d.setMd md) (Function.update left idx (left idx ++ xs)) =
      runAll Chore.act ((settle Chore.act allSegments d left).setMd md)
        (xs.map (Prod.mk idx)) := by
  have after := orderly.begin mine carries
  rw [settle_append nodup_segments (mem_segments idx)]
  · rw [settle, runAll_chores_setMd]
    rfl
  · intro j other y there z new
    have old : y ∈ Function.update left idx (left idx ++ xs) j := by
      rwa [Function.update_of_ne other]
    have added : z ∈ Function.update left idx (left idx ++ xs) idx := by
      rw [Function.update_self]
      exact List.mem_append_right _ new
    exact Chore.commute other (after.inSegment j y old) (after.inSegment idx z added)
      (after.across j idx other y old z added)

end Orderly

/-! ## What is begun and what is to come -/

def SsdPhase.chores : SsdPhase → List Chore
  | .poll => []
  | .execute task => [.stage task, .move task, .count task]
  | .staged task => [.move task, .count task]
  | .moved task => [.count task]

def NvmPc.chores : NvmPc → List Chore
  | .doing _ deeds => Mixdk.chores deeds
  | .poll | .full _ | .migrating _ => []

namespace Station

/-- The work begun in a station. -/
def chores (station : Station) : List Chore :=
  station.ssd.chores ++
    (Mixdk.chores (station.ssdQueue.map fun task => .act (.postTaskToSsd task)) ++
      station.nvm.chores)

/-- The tasks in the queues of a station. -/
def posts (station : Station) (idx : SegIdx) : List Post :=
  station.nvmQueue.map .nvm ++ station.bufferQueue.map (.buffer idx)

/-- One of the two queues. -/
def lane (station : Station) (idx : SegIdx) (nvm : Bool) : List Post :=
  if nvm then station.nvmQueue.map .nvm else station.bufferQueue.map (.buffer idx)

end Station

namespace Pipeline

def storage (s : Pipeline) : Storage := { m := s.m, region := s.region }

/-- The work begun in each station. -/
def left (s : Pipeline) (idx : SegIdx) : List Chore := (s.station idx).chores

/-- The storage with all the work done that has been begun. -/
def settled (s : Pipeline) : Storage := settle Chore.act allSegments s.storage s.left

/-- The tasks to come, `todo` those that the scheduler has not posted. -/
def pending (s : Pipeline) (todo : List Post) : List Post :=
  (allSegments.flatMap fun idx => (s.station idx).posts idx) ++ todo

/-- The tasks to come in one queue, in order. -/
def waiting (s : Pipeline) (todo : List Post) (lane : Nat × Bool) : List Post :=
  (if inside : lane.1 < SEGMENT_NUM then
    (s.station ⟨lane.1, inside⟩).lane ⟨lane.1, inside⟩ lane.2 else []) ++
    todo.filter fun p => p.lane = lane

/-- No nvm_worker has found its segment full. -/
def Unfull (s : Pipeline) : Prop := ∀ idx task, (s.station idx).nvm ≠ .full task

/-- The index is in order, what is left commutes as it should, and nothing is migrated. -/
structure Ready (P : Nat) (s : Pipeline) (todo : List Post) : Prop where
  running : Running P s.m
  orderly : Orderly P s.left (s.pending todo)
  aligned : ∀ idx, ∀ task ∈ (s.station idx).nvmQueue, task.queueIdx = idx
  migration : s.migration = none
  still : ∀ idx task, (s.station idx).nvm ≠ .migrating task

/-- The task that an nvm_worker takes in this turn, if it takes one. -/
def begun (s : Pipeline) : Turn → Option Post
  | .nvm idx =>
      match (s.station idx).nvm with
      | .poll => ((s.station idx).lane idx (s.station idx).odd).head?
      | .doing .. | .full _ | .migrating _ => none
  | _ => none

/-- What a step comes to: work that was begun goes on, or a task is begun. -/
inductive Progress (s : Pipeline) (turn : Turn) (todo : List Post) (t : Pipeline)
    (todo' : List Post) : Prop
  | work (settled : t.settled = s.settled) (waiting : t.waiting todo' = s.waiting todo)
  | begins {p : Post} {later : List Post} (taken : s.begun turn = some p) (served : s.settled.serve p = some t.settled)
      (next : s.waiting todo p.lane = p :: later)
      (waiting : t.waiting todo' = Function.update (s.waiting todo) p.lane later)

section

variable {P : Nat} {s t : Pipeline} {turn : Turn} {idx : SegIdx} {station : Station}
  {todo todo' : List Post} {p : Post}

/-! ## One station changes -/

theorem left_update (at_ : t.station = Function.update s.station idx station) :
    t.left = Function.update s.left idx station.chores := by
  funext j
  unfold left
  rw [at_, Function.update_apply, Function.update_apply]
  split <;> rfl

theorem posts_update (at_ : t.station = Function.update s.station idx station) :
    (fun j => (t.station j).posts j) =
      Function.update (fun j => (s.station j).posts j) idx (station.posts idx) := by
  funext j
  rw [at_, Function.update_apply, Function.update_apply]
  split
  next same => rw [same]
  next => rfl

/-- The queues of one station change. -/
theorem pending_update (at_ : t.station = Function.update s.station idx station)
    (todo : List Post) :
    (t.pending todo ++ (s.station idx).posts idx).Perm (s.pending todo ++ station.posts idx) := by
  have traded := ChainTable.flatMap_update_perm (fun j => (s.station j).posts j)
    (station.posts idx) nodup_segments (mem_segments idx)
  rw [← posts_update at_] at traded
  unfold pending
  have swap : ∀ xs ys zs : List Post, (xs ++ ys ++ zs).Perm (xs ++ zs ++ ys) := fun xs ys zs => by
    rw [List.append_assoc, List.append_assoc]
    exact List.perm_append_comm.append_left xs
  exact (swap _ _ _).trans ((traded.append_right todo).trans (swap _ _ _))

theorem waiting_update (at_ : t.station = Function.update s.station idx station)
    (lanes : ∀ nvm, station.lane idx nvm = (s.station idx).lane idx nvm) :
    t.waiting todo = s.waiting todo := by
  funext lane
  unfold waiting
  congr 1
  split
  next inside =>
    rw [at_, Function.update_apply]
    split
    next same => rw [same]; exact lanes lane.2
    next => rfl
  next => rfl

theorem waiting_at (s : Pipeline) (todo : List Post) (idx : SegIdx) (nvm : Bool) :
    s.waiting todo ((idx : Nat), nvm) =
      (s.station idx).lane idx nvm ++ todo.filter fun p => p.lane = ((idx : Nat), nvm) := by
  have inside : (idx : Nat) < SEGMENT_NUM := idx.isLt
  exact congrArg (· ++ _) (dif_pos inside)

/-- One queue changes. -/
theorem waiting_change (at_ : t.station = Function.update s.station idx station) {nvm : Bool}
    (other : station.lane idx (!nvm) = (s.station idx).lane idx (!nvm))
    (rest : ∀ lane, lane ≠ ((idx : Nat), nvm) →
      (todo'.filter fun p => p.lane = lane) = todo.filter fun p => p.lane = lane) :
    t.waiting todo' = Function.update (s.waiting todo) (idx, nvm)
      (station.lane idx nvm ++ todo'.filter fun p => p.lane = ((idx : Nat), nvm)) := by
  funext lane
  rw [Function.update_apply]
  split
  next same =>
    subst same
    rw [waiting_at, at_, Function.update_self]
  next different =>
    rw [waiting, waiting, rest lane different]
    congr 1
    split
    next inside =>
      rw [at_, Function.update_apply]
      split
      next same =>
        have side : lane.2 = !nvm := by
          refine Bool.eq_not.2 fun same' => different (Prod.ext ?_ same')
          exact congrArg Fin.val same
        rw [same, side]
        exact other
      next => rfl
    next => rfl

theorem posts_eq (station : Station) (idx : SegIdx) :
    station.posts idx = station.lane idx true ++ station.lane idx false := rfl

/-- A task more in one queue is a task more at the station. -/
theorem posts_perm {more : Station} {side : Bool}
    (grown : (more.lane idx side).Perm (p :: station.lane idx side))
    (other : more.lane idx (!side) = station.lane idx (!side)) :
    (more.posts idx).Perm (p :: station.posts idx) := by
  rw [posts_eq, posts_eq]
  cases side with
  | true =>
      rw [Bool.not_true] at other
      rw [other]
      exact grown.append_right _
  | false =>
      rw [Bool.not_false] at other
      rw [other]
      exact (grown.append_left _).trans List.perm_middle

theorem settled_md (s : Pipeline) : s.settled.m.md = s.m.md := runAll_chores_md _ _

/-- The stations, the storage and the migration are all that matters. -/
theorem Ready.congr (ready : s.Ready P todo) (station : t.station = s.station)
    (storage : t.storage = s.storage) (migration : t.migration = s.migration) :
    t.Ready P todo ∧ s.Progress turn todo t todo := by
  have left : t.left = s.left := by
    funext idx
    rw [Pipeline.left, station, Pipeline.left]
  have pending : t.pending todo = s.pending todo := by rw [Pipeline.pending, station, Pipeline.pending]
  have m : t.m = s.m := congrArg Storage.m storage
  refine ⟨⟨?_, ?_, ?_, ?_, ?_⟩, .work ?_ ?_⟩
  · rw [m]
    exact ready.running
  · rw [left, pending]
    exact ready.orderly
  · rw [station]
    exact ready.aligned
  · rw [migration]
    exact ready.migration
  · rw [station]
    exact ready.still
  · rw [settled, settled, storage, left]
  · funext lane
    rw [waiting, station, waiting]

theorem Ready.aligned_update (ready : s.Ready P todo)
    (at_ : t.station = Function.update s.station idx station)
    (aligned : ∀ task ∈ station.nvmQueue, task.queueIdx = idx) :
    ∀ j, ∀ task ∈ (t.station j).nvmQueue, task.queueIdx = j := by
  intro j task member
  rw [at_, Function.update_apply] at member
  split at member
  next same => exact same ▸ aligned task member
  next => exact ready.aligned j task member

theorem Ready.still_update (ready : s.Ready P todo)
    (at_ : t.station = Function.update s.station idx station)
    (still : ∀ task, station.nvm ≠ .migrating task) :
    ∀ j task, (t.station j).nvm ≠ .migrating task := by
  intro j task
  rw [at_, Function.update_apply]
  split
  next => exact still task
  next => exact ready.still j task

section Change

variable (ready : s.Ready P todo) (at_ : t.station = Function.update s.station idx station)
  (migration : t.migration = s.migration) (still : ∀ task, station.nvm ≠ .migrating task)

include ready at_ migration still

/-- A step that takes nothing off the queues of its station, and puts nothing in. -/
theorem Ready.within (running : Running P t.m) (nvmQueue : station.nvmQueue = (s.station idx).nvmQueue)
    (bufferQueue : station.bufferQueue = (s.station idx).bufferQueue)
    (orderly : Orderly P t.left (s.pending todo)) (settled : t.settled = s.settled) :
    t.Ready P todo ∧ s.Progress turn todo t todo := by
  have posts : station.posts idx = (s.station idx).posts idx := by
    rw [Station.posts, nvmQueue, bufferQueue, Station.posts]
  have pending := pending_update at_ todo
  rw [posts] at pending
  refine ⟨⟨running, orderly.perm ((List.perm_append_right_iff _).1 pending).symm, ?_,
    migration ▸ ready.migration, ready.still_update at_ still⟩,
    .work settled (waiting_update at_ fun nvm => ?_)⟩
  · refine ready.aligned_update at_ ?_
    rw [nvmQueue]
    exact ready.aligned idx
  · rw [Station.lane, nvmQueue, bufferQueue, Station.lane]

/-- A step that does no work. -/
theorem Ready.same (storage : t.storage = s.storage)
    (chores : station.chores = (s.station idx).chores)
    (nvmQueue : station.nvmQueue = (s.station idx).nvmQueue)
    (bufferQueue : station.bufferQueue = (s.station idx).bufferQueue) :
    t.Ready P todo ∧ s.Progress turn todo t todo := by
  have left : t.left = s.left := by
    rw [left_update at_, chores]
    exact Function.update_eq_self idx s.left
  have m : t.m = s.m := congrArg Storage.m storage
  refine ready.within at_ migration still (m ▸ ready.running) nvmQueue bufferQueue ?_ ?_
  · rw [left]
    exact ready.orderly
  · rw [settled, settled, storage, left]

/-- A step that does one chore. -/
theorem Ready.take {xs ys : List Chore} {x : Chore} (lane : s.left idx = xs ++ x :: ys)
    (front : xs = [] ∨ (∃ what, x = .deed what) ∧ ∀ y ∈ xs, ∀ what, y ≠ .deed what)
    (storage : t.storage = Chore.act (idx, x) s.storage) (chores : station.chores = xs ++ ys)
    (nvmQueue : station.nvmQueue = (s.station idx).nvmQueue)
    (bufferQueue : station.bufferQueue = (s.station idx).bufferQueue) :
    t.Ready P todo ∧ s.Progress turn todo t todo := by
  have left : t.left = Function.update s.left idx (xs ++ ys) := by
    rw [left_update at_, chores]
  have md : t.m.md = s.m.md := by
    have storage_md := congrArg (fun d => d.m.md) storage
    exact storage_md.trans (Chore.act_md _ _)
  have running : Running P t.m :=
    ⟨md ▸ ready.running.all, (congrArg Metadata.perBlockNum md).trans ready.running.perBlockNum⟩
  refine ready.within at_ migration still running nvmQueue bufferQueue ?_ ?_
  · rw [left]
    exact ready.orderly.take lane
  · rw [settled, settled, storage, left, ← ready.orderly.settle_take lane front]

/-- A step that begins a task. -/
theorem Ready.begins {md : Metadata} {deeds : List Deed} (poll : (s.station idx).nvm = .poll)
    (odd : (s.station idx).odd = p.lane.2)
    (head : (s.station idx).lane idx p.lane.2 = p :: station.lane idx p.lane.2)
    (other : station.lane idx (!p.lane.2) = (s.station idx).lane idx (!p.lane.2))
    (fewer : station.nvmQueue ⊆ (s.station idx).nvmQueue)
    (begins : Begins s.m.md p idx md deeds) (storage : t.storage = s.storage.setMd md)
    (chores : station.chores = (s.station idx).chores ++ Mixdk.chores deeds) :
    t.Ready P todo ∧ s.Progress (.nvm idx) todo t todo := by
  have mine := begins.lane
  have posts : ((s.station idx).posts idx).Perm (p :: station.posts idx) :=
    posts_perm (.of_eq head) other.symm
  have pending : (s.pending todo).Perm (p :: t.pending todo) := by
    have traded := pending_update at_ todo
    have moved : ((p :: t.pending todo) ++ station.posts idx).Perm
        (s.pending todo ++ station.posts idx) :=
      List.perm_middle.symm.trans ((posts.symm.append_left _).trans traded)
    exact ((List.perm_append_right_iff _).1 moved).symm
  have orderly := ready.orderly.perm pending
  have suits := orderly.suits p List.mem_cons_self
  have all := ready.running.all
  have carries := begins.carries all suits
  obtain ⟨all', size⟩ := begins.allIndexed all suits
  rw [ready.running.perBlockNum] at carries size
  have left : t.left = Function.update s.left idx (s.left idx ++ Mixdk.chores deeds) := by
    rw [left_update at_, chores]
    rfl
  have m : t.m.md = md := congrArg (fun d => d.m.md) storage
  have lane : p.lane = ((idx : Nat), p.lane.2) := Prod.ext mine rfl
  refine ⟨⟨⟨m ▸ all', m ▸ size⟩, ?_,
    ready.aligned_update at_ fun task member => ready.aligned idx task (fewer member),
    migration ▸ ready.migration, ready.still_update at_ still⟩,
    @Progress.begins s (.nvm idx) todo t todo p
      (station.lane idx p.lane.2 ++ todo.filter fun q => q.lane = p.lane) ?_ ?_ ?_ ?_⟩
  · rw [left]
    exact orderly.begin mine carries
  · rw [begun, poll, odd, head]
    rfl
  · refine serve_eq_some.2 ⟨idx, md, deeds, by rw [settled_md]; exact begins, ?_⟩
    rw [settled, left, storage]
    exact orderly.settle_begin mine carries s.storage md
  · have here := waiting_at s todo idx p.lane.2
    rw [← lane, head] at here
    exact here
  · rw [lane]
    exact waiting_change at_ other fun _ _ => rfl

end Change

/-- The scheduler posts the first task of its list. -/
theorem Ready.posts (ready : s.Ready P (p :: todo))
    (at_ : t.station = Function.update s.station idx station)
    (migration : t.migration = s.migration) (nvm : station.nvm = (s.station idx).nvm)
    (mine : p.lane.1 = idx)
    (tail : station.lane idx p.lane.2 = (s.station idx).lane idx p.lane.2 ++ [p])
    (other : station.lane idx (!p.lane.2) = (s.station idx).lane idx (!p.lane.2))
    (storage : t.storage = s.storage) (chores : station.chores = (s.station idx).chores)
    (aligned : ∀ task ∈ station.nvmQueue, task.queueIdx = idx) :
    t.Ready P todo ∧ s.Progress turn (p :: todo) t todo := by
  have posts : (station.posts idx).Perm (p :: (s.station idx).posts idx) :=
    posts_perm (tail ▸ List.perm_append_singleton p _) other
  have pending : (s.pending (p :: todo)).Perm (t.pending todo) := by
    have traded := pending_update at_ todo
    have moved : (t.pending todo ++ (s.station idx).posts idx).Perm
        ((p :: s.pending todo) ++ (s.station idx).posts idx) :=
      traded.trans ((posts.append_left _).trans List.perm_middle)
    have front : (s.pending (p :: todo)).Perm (p :: s.pending todo) := List.perm_middle
    exact front.trans ((List.perm_append_right_iff _).1 moved).symm
  have left : t.left = s.left := by
    rw [left_update at_, chores]
    exact Function.update_eq_self idx s.left
  have m : t.m = s.m := congrArg Storage.m storage
  have lane : p.lane = ((idx : Nat), p.lane.2) := Prod.ext mine rfl
  refine ⟨⟨m ▸ ready.running, ?_, ready.aligned_update at_ aligned,
    migration ▸ ready.migration, ready.still_update at_ (nvm ▸ ready.still idx)⟩, .work ?_ ?_⟩
  · rw [left]
    exact ready.orderly.perm pending
  · rw [settled, settled, storage, left]
  · have others : ∀ lane, lane ≠ ((idx : Nat), p.lane.2) →
        (todo.filter fun q => q.lane = lane) = (p :: todo).filter fun q => q.lane = lane := by
      intro lane' different
      refine (List.filter_cons_of_neg (p := fun q : Post => decide (q.lane = lane')) ?_).symm
      rw [decide_eq_true_eq]
      exact fun same => different (same.symm.trans lane)
    have here : ((p :: todo).filter fun q => q.lane = ((idx : Nat), p.lane.2)) =
        p :: todo.filter fun q => q.lane = ((idx : Nat), p.lane.2) :=
      List.filter_cons_of_pos (decide_eq_true lane)
    rw [waiting_change at_ other others, Function.update_eq_self_iff, waiting_at, tail, here,
      List.append_assoc]
    rfl

/-! ## Steps -/

/-- The work of an ssd_worker is no deeds. -/
theorem ssd_not_deed (station : Station) :
    ∀ x ∈ station.ssd.chores ++
        Mixdk.chores (station.ssdQueue.map fun task => .act (.postTaskToSsd task)),
      ∀ what, x ≠ .deed what := by
  intro x member what
  rintro rfl
  rcases List.mem_append.1 member with hand | queued
  · cases at_ : station.ssd with
    | poll | execute _ | staged _ | moved _ => simp [at_, SsdPhase.chores] at hand
  · obtain ⟨posted, there, inside⟩ := List.mem_flatMap.1 queued
    obtain ⟨task, -, rfl⟩ := List.mem_map.1 there
    simp [Deed.chores, Action.works, Work.chores] at inside

/-- The chores of a station whose nvm_worker has a deed before it. -/
theorem chores_doing {task : IoTask} {what : Deed} {rest : List Deed}
    (doing : (s.station idx).nvm = .doing task (what :: rest))
    (single : what.chores = [.deed what]) :
    s.left idx = ((s.station idx).ssd.chores ++
      Mixdk.chores ((s.station idx).ssdQueue.map fun task => .act (.postTaskToSsd task))) ++
        .deed what :: Mixdk.chores rest := by
  rw [left, Station.chores, doing, NvmPc.chores, chores_cons, single, List.append_assoc]
  rfl

/-- A deed is done. -/
theorem Ready.deed (ready : s.Ready P todo) {task : IoTask} {what : Deed} {rest : List Deed}
    (doing : (s.station idx).nvm = .doing task (what :: rest))
    (single : what.chores = [.deed what])
    (at_ : t.station =
      Function.update s.station idx { s.station idx with nvm := .doing task rest })
    (migration : t.migration = s.migration) (storage : t.storage = s.storage.perform what) :
    t.Ready P todo ∧ s.Progress turn todo t todo :=
  ready.take at_ migration nofun (chores_doing doing single)
    (.inr ⟨⟨what, rfl⟩, ssd_not_deed _⟩) storage
    (by rw [Station.chores, List.append_assoc]; rfl) rfl rfl

/-- An nvm_worker takes the task that its queue holds for it. -/
theorem Ready.takes (ready : s.Ready P todo) {task : IoTask} {station' : Station}
    {md : Metadata} {deeds : List Deed} (poll : (s.station idx).nvm = .poll)
    (takes : Takes (s.station idx) task station')
    (begins : ∀ p : Post, p.lane.1 = idx → p.task = task → p.Suits →
      Begins s.m.md p idx md deeds)
    (at_ : t.station = Function.update s.station idx { station' with nvm := .doing task deeds })
    (migration : t.migration = s.migration) (storage : t.storage = s.storage.setMd md) :
    t.Ready P todo ∧ s.Progress (.nvm idx) todo t todo := by
  have suits : ∀ p ∈ (s.station idx).posts idx, p.Suits := fun p member =>
    ready.orderly.suits p (List.mem_append_left _
      (List.mem_flatMap.2 ⟨idx, mem_segments idx, member⟩))
  have idle : (s.station idx).chores = (s.station idx).ssd.chores ++
      Mixdk.chores ((s.station idx).ssdQueue.map fun task => .act (.postTaskToSsd task)) := by
    rw [Station.chores, poll, NvmPc.chores, List.append_nil]
  cases takes with
  | @nvm rest odd queue =>
      have mine : task.queueIdx = idx :=
        ready.aligned idx task (queue ▸ List.mem_cons_self)
      have suit : (Post.nvm task).Suits := suits _ (List.mem_append_left _
        (List.mem_map.2 ⟨task, queue ▸ List.mem_cons_self, rfl⟩))
      refine ready.begins (p := .nvm task) at_ migration nofun poll odd ?_ rfl ?_
        (begins (.nvm task) mine rfl suit) storage ?_
      · simp [Station.lane, Post.lane, queue]
      · rw [queue]
        exact List.subset_cons_self task rest
      · rw [idle, Station.chores, List.append_assoc]
        rfl
  | @buffer rest even queue =>
      have suit : (Post.buffer idx task).Suits := suits _ (List.mem_append_right _
        (List.mem_map.2 ⟨task, queue ▸ List.mem_cons_self, rfl⟩))
      refine ready.begins (p := .buffer idx task) at_ migration nofun poll even ?_ rfl
        (List.Subset.refl _) (begins (.buffer idx task) rfl rfl suit) storage ?_
      · simp [Station.lane, Post.lane, queue]
      · rw [idle, Station.chores, List.append_assoc]
        rfl

theorem Ready.nvm (ready : s.Ready P todo) (unfull : s.Unfull) (unfull' : t.Unfull)
    (step : NvmStep s idx t) : t.Ready P todo ∧ s.Progress (.nvm idx) todo t todo := by
  cases step with
  | turn poll odd => exact ready.same rfl rfl (ready.still idx) rfl rfl rfl rfl
  | @nvmTask task station poll takes type =>
      refine ready.takes poll takes (fun p mine is suits => ?_) rfl rfl rfl
      cases p with
      | nvm task' =>
          obtain rfl : task' = task := is
          have inside : task'.queueIdx < SEGMENT_NUM := lt_of_eq_of_lt mine idx.isLt
          have here : (⟨task'.queueIdx, inside⟩ : SegIdx) = idx := Fin.ext mine
          exact here ▸ Begins.nvm inside
      | buffer =>
          obtain rfl := is
          exact absurd (type.symm.trans suits.1) (by decide)
  | @ssdTask task station md actions ret poll takes type result =>
      refine ready.takes poll takes (fun p mine is suits => ?_) rfl rfl rfl
      cases p with
      | nvm task' =>
          obtain rfl := is
          exact absurd (type.symm.trans suits) (by decide)
      | buffer idx' task' =>
          obtain rfl : task' = task := is
          obtain rfl : idx' = idx := Fin.ext mine
          exact .buffer result
  | @full task station poll takes type result =>
      have here : (s.setStation idx { station with nvm := .full task }).station idx =
          { station with nvm := .full task } := Function.update_self ..
      exact absurd (congrArg Station.nvm here) (unfull' idx task)
  | @noTask task station poll takes notNvm notSsd =>
      refine ready.takes poll takes (fun p mine is suits => ?_) rfl rfl (Storage.setMd_self _).symm
      cases p with
      | nvm task' =>
          obtain rfl := is
          exact absurd suits notNvm
      | buffer idx' task' =>
          obtain rfl := is
          exact absurd suits.1 notSsd
  | @postSsd task posted rest doing =>
      refine ready.same rfl rfl nofun rfl ?_ rfl rfl
      simp only [Station.chores, doing, NvmPc.chores, List.map_append, List.map_cons, List.map_nil,
        chores_append, chores_cons, List.append_assoc]
      rfl
  | @act task a rest other doing =>
      refine ready.deed doing ?_ rfl rfl rfl
      cases a with
      | postTaskToSsd posted => exact absurd rfl (other posted)
      | readFromBuffer | writeToBuffer | bufferClear | addRet | nvmWriteBlockCompleted => rfl
  | nvmRead doing => exact ready.deed doing rfl rfl rfl rfl
  | nvmWrite doing => exact ready.deed doing rfl rfl rfl rfl
  | @finish task doing =>
      refine ready.same rfl rfl nofun rfl ?_ rfl rfl
      rw [Station.chores, Station.chores, doing]
      rfl
  | @beginMigration task full free => exact absurd full (unfull idx task)
  | @endMigration task md actions ret migrating result =>
      exact absurd migrating (ready.still idx task)

theorem Ready.ssd (ready : s.Ready P todo) (step : SsdStep s idx t) :
    t.Ready P todo ∧ s.Progress turn todo t todo := by
  have still := ready.still idx
  cases step with
  | @take task rest poll queue =>
      refine ready.same rfl rfl still rfl ?_ rfl rfl
      rw [Station.chores, Station.chores, poll, queue]
      rfl
  | @stage task execute =>
      have lane : s.left idx = [] ++ .stage task :: (.move task :: .count task ::
          (Mixdk.chores ((s.station idx).ssdQueue.map fun task => .act (.postTaskToSsd task)) ++
            (s.station idx).nvm.chores)) := by
        rw [left, Station.chores, execute]
        rfl
      exact ready.take rfl rfl still lane (.inl rfl) rfl rfl rfl rfl
  | @move task staged =>
      have lane : s.left idx = [] ++ .move task :: (.count task ::
          (Mixdk.chores ((s.station idx).ssdQueue.map fun task => .act (.postTaskToSsd task)) ++
            (s.station idx).nvm.chores)) := by
        rw [left, Station.chores, staged]
        rfl
      exact ready.take rfl rfl still lane (.inl rfl) rfl rfl rfl rfl
  | @count task moved =>
      have lane : s.left idx = [] ++ .count task ::
          (Mixdk.chores ((s.station idx).ssdQueue.map fun task => .act (.postTaskToSsd task)) ++
            (s.station idx).nvm.chores) := by
        rw [left, Station.chores, moved]
        rfl
      exact ready.take rfl rfl still lane (.inl rfl) rfl rfl rfl rfl

/-- The posts for a list of tasks. -/
def jobs (tasks : List IoTask) : List Post := tasks.flatMap fun task => doSchedule (handleTask task)

/-- The task that the scheduler takes in this turn, if it takes one. -/
def taken (s : Pipeline) : Turn → List IoTask
  | .scheduler =>
      match s.hand with
      | [] => (s.submitQueue s.idx).head?.toList
      | _ :: _ => []
  | _ => []

theorem taken_task {task : IoTask} {rest : List IoTask} (hand : s.hand = [])
    (queue : s.submitQueue s.idx = task :: rest) : s.taken .scheduler = [task] := by
  rw [taken, hand, queue]
  rfl

theorem taken_skip (hand : s.hand = []) (queue : s.submitQueue s.idx = []) :
    s.taken .scheduler = [] := by
  rw [taken, hand, queue]
  rfl

theorem taken_hand {rest : List Post} (hand : s.hand = p :: rest) : s.taken .scheduler = [] := by
  rw [taken, hand]

theorem Ready.front {submitQueueNum : Nat}
    (ready : s.Ready P (s.hand ++ (jobs (s.taken turn) ++ todo)))
    (step : FrontStep submitQueueNum s turn t) :
    t.Ready P (t.hand ++ todo) ∧
      s.Progress turn (s.hand ++ (jobs (s.taken turn) ++ todo)) t (t.hand ++ todo) := by
  cases step with
  | post next queue => exact ready.congr rfl rfl rfl
  | free posted completed => exact ready.congr rfl rfl rfl
  | skip hand queue =>
      rw [taken_skip hand queue] at ready ⊢
      exact ready.congr rfl rfl rfl
  | @schedule task rest hand queue =>
      have same : s.hand ++ (jobs (s.taken .scheduler) ++ todo) =
          doSchedule (handleTask task) ++ todo := by
        rw [taken_task hand queue, hand, jobs, List.flatMap_singleton, List.nil_append]
      rw [same] at ready ⊢
      exact ready.congr rfl rfl rfl
  | @toNvm task rest hand inside =>
      have same : s.hand ++ (jobs (s.taken .scheduler) ++ todo) = .nvm task :: (rest ++ todo) := by
        rw [taken_hand hand, hand]
        rfl
      rw [same] at ready ⊢
      refine ready.posts rfl rfl rfl rfl ?_ rfl rfl rfl fun other member => ?_
      · simp [Station.lane, Post.lane]
      · rcases List.mem_append.1 member with old | new
        · exact ready.aligned _ other old
        · rw [List.mem_singleton.1 new]
  | @toBuffer idx task rest hand =>
      have same : s.hand ++ (jobs (s.taken .scheduler) ++ todo) =
          .buffer idx task :: (rest ++ todo) := by
        rw [taken_hand hand, hand]
        rfl
      rw [same] at ready ⊢
      refine ready.posts rfl rfl rfl rfl ?_ rfl rfl rfl (ready.aligned idx)
      simp [Station.lane, Post.lane]

/-- **A step of any thread either leaves the settled storage where it is, or moves it by one task
served at once.** -/
theorem Ready.step {submitQueueNum : Nat}
    (ready : s.Ready P (s.hand ++ (jobs (s.taken turn) ++ todo))) (unfull : s.Unfull)
    (unfull' : t.Unfull) (cases_ : StepCases submitQueueNum s turn t) :
    t.Ready P (t.hand ++ todo) ∧
      s.Progress turn (s.hand ++ (jobs (s.taken turn) ++ todo)) t (t.hand ++ todo) := by
  cases cases_ with
  | front step => exact ready.front step
  | nvm idx is step =>
      subst is
      have hand : t.hand = s.hand := by cases step <;> rfl
      rw [hand]
      exact ready.nvm unfull unfull' step
  | ssd idx is step =>
      subst is
      have hand : t.hand = s.hand := by cases step <;> rfl
      rw [hand]
      exact ready.ssd step
  | migrate thread is migration =>
      rw [ready.migration] at migration
      cases migration

end

end Pipeline

end Mixdk
