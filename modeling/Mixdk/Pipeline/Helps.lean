/-
# Pipeline.Helps -- the thread that can go on

`Pipeline.Helps` says of a thread that it does some of what is left when it is tried often enough: once, or
as often as it takes the scheduler to come to a queue.  Until it is tried nothing the others do keeps it
from it, and when it is, the weight is less, it has come closer, or an nvm_worker searches for ever
(`Pipeline.Spins`).
-/
import Mixdk.Pipeline.Steady

namespace Mixdk

open Transition

set_option autoImplicit false

namespace Pipeline

variable {H P submitQueueNum capacity : Nat} {s t : Pipeline} {idx : SegIdx}

/-! ## Looking changes nothing that matters -/

/-- All but where the threads look next, and what was noted. -/
structure Unmoved (turn : Turn) (s t : Pipeline) : Prop where
  toPost : t.toPost = s.toPost
  submitQueue : t.submitQueue = s.submitQueue
  hand : t.hand = s.hand
  m : t.m = s.m
  migration : t.migration = s.migration
  idx : turn ≠ .scheduler → t.idx = s.idx
  station : ∀ j, ∃ odd, t.station j = { s.station j with odd := odd }
  other : ∀ j, turn ≠ .nvm j → t.station j = s.station j

theorem Looks.unmoved {turn : Turn} (looks : Looks submitQueueNum s turn t) :
    Unmoved turn s t := by
  cases looks with
  | @turn idx poll odd =>
      refine ⟨rfl, rfl, rfl, rfl, rfl, fun _ => rfl, fun j => ?_, fun j other => ?_⟩
      · dsimp only [setStation]
        by_cases here : j = idx
        · exact ⟨odd, by rw [here, Function.update_self]⟩
        · exact ⟨(s.station j).odd, by rw [Function.update_of_ne here]⟩
      · dsimp only [setStation]
        rw [Function.update_of_ne]
        rintro rfl
        exact other rfl
  | skip => exact ⟨rfl, rfl, rfl, rfl, rfl, fun h => absurd rfl h, fun j => ⟨_, rfl⟩, fun _ _ => rfl⟩
  | free => exact ⟨rfl, rfl, rfl, rfl, rfl, fun _ => rfl, fun j => ⟨_, rfl⟩, fun _ _ => rfl⟩

theorem Unmoved.weight {turn : Turn} (unmoved : Unmoved turn s t) :
    t.weight H submitQueueNum = s.weight H submitQueueNum := by
  have stations : ∀ j, (t.station j).weight H = (s.station j).weight H := fun j => by
    obtain ⟨odd, same⟩ := unmoved.station j
    rw [same]
    rfl
  simp only [Pipeline.weight, walkLeft, unmoved.toPost, unmoved.submitQueue, unmoved.hand,
    unmoved.m, unmoved.migration, stations]

/-! ## The thread that can go on -/

/-- The thread `turn` does something of what is left when it is tried for the `k + 1`st time, at the
latest. -/
inductive Helps (capacity submitQueueNum : Nat) (s : Pipeline) : Turn → Nat → Prop
  | post {i : Nat} {request : Request} {rest : List Request} (next : s.toPost i = request :: rest)
      (empty : s.submitQueue i = []) : Helps capacity submitQueueNum s (.post i) 0
  /-- The scheduler comes to a queue with a task. -/
  | poll {k : Nat} (hand : s.hand = [])
      (waiting : s.submitQueue ((pollNext submitQueueNum)^[k] s.idx) ≠ []) :
      Helps capacity submitQueueNum s .scheduler k
  | handNvm {task : IoTask} {rest : List Post} (hand : s.hand = .nvm task :: rest)
      (inside : task.queueIdx < SEGMENT_NUM)
      (room : (s.station ⟨task.queueIdx, inside⟩).nvmQueue.length < capacity) :
      Helps capacity submitQueueNum s .scheduler 0
  | handBuffer {idx : SegIdx} {task : IoTask} {rest : List Post}
      (hand : s.hand = .buffer idx task :: rest)
      (room : (s.station idx).bufferQueue.length < capacity) :
      Helps capacity submitQueueNum s .scheduler 0
  /-- The nvm_worker is at a queue with a task. -/
  | take {idx : SegIdx} (poll : (s.station idx).nvm = .poll) (waiting : (s.station idx).queue ≠ []) :
      Helps capacity submitQueueNum s (.nvm idx) 0
  /-- It comes to one. -/
  | turn {idx : SegIdx} (poll : (s.station idx).nvm = .poll)
      (waiting : (s.station idx).bufferQueue ≠ [] ∨ (s.station idx).nvmQueue ≠ []) :
      Helps capacity submitQueueNum s (.nvm idx) 1
  | deed {idx : SegIdx} {task : IoTask} {deeds : List Deed}
      (doing : (s.station idx).nvm = .doing task deeds)
      (room : (s.station idx).ssdQueue.length < capacity) :
      Helps capacity submitQueueNum s (.nvm idx) 0
  | full {idx : SegIdx} {task : IoTask} (full : (s.station idx).nvm = .full task)
      (free : s.migration = none) : Helps capacity submitQueueNum s (.nvm idx) 0
  | migrated {idx : SegIdx} {task : IoTask} {pc : Fin MIGRATE_THREAD_NUM → MigratePc}
      (migrating : (s.station idx).nvm = .migrating task) (running : s.migration = some (idx, pc))
      (ends : ∀ t, pc t = .done) : Helps capacity submitQueueNum s (.nvm idx) 0
  | walk {idx : SegIdx} {pc : Fin MIGRATE_THREAD_NUM → MigratePc} {t : Fin MIGRATE_THREAD_NUM}
      (running : s.migration = some (idx, pc)) (busy : pc t ≠ .done) :
      Helps capacity submitQueueNum s (.migrate t) 0
  | ssdTake {idx : SegIdx} (poll : (s.station idx).ssd = .poll)
      (waiting : (s.station idx).ssdQueue ≠ []) : Helps capacity submitQueueNum s (.ssd idx) 0
  | ssdWork {idx : SegIdx} (busy : (s.station idx).ssd ≠ .poll) :
      Helps capacity submitQueueNum s (.ssd idx) 0

/-- While other threads only look, the helper goes on helping. -/
theorem Helps.keep {a b : Turn} {k : Nat} (helps : Helps capacity submitQueueNum s a k)
    (other : b ≠ a) (unmoved : Unmoved b s t) : Helps capacity submitQueueNum t a k := by
  cases helps with
  | post next empty => exact .post (unmoved.toPost ▸ next) (unmoved.submitQueue ▸ empty)
  | poll hand waiting =>
      refine .poll (unmoved.hand ▸ hand) ?_
      rw [unmoved.submitQueue, unmoved.idx other]
      exact waiting
  | @handNvm task _ hand inside room =>
      refine .handNvm (unmoved.hand ▸ hand) inside ?_
      obtain ⟨odd, same⟩ := unmoved.station ⟨task.queueIdx, inside⟩
      rw [same]
      exact room
  | @handBuffer idx _ _ hand room =>
      refine .handBuffer (unmoved.hand ▸ hand) ?_
      obtain ⟨odd, same⟩ := unmoved.station idx
      rw [same]
      exact room
  | @take idx poll waiting =>
      have same := unmoved.other idx other
      exact .take (same ▸ poll) (same ▸ waiting)
  | @turn idx poll waiting =>
      have same := unmoved.other idx other
      exact .turn (same ▸ poll) (same ▸ waiting)
  | @deed idx _ _ doing room =>
      have same := unmoved.other idx other
      exact .deed (same ▸ doing) (same ▸ room)
  | @full idx _ full free =>
      have same := unmoved.other idx other
      exact .full (same ▸ full) (unmoved.migration ▸ free)
  | @migrated idx _ _ migrating running ends =>
      have same := unmoved.other idx other
      exact .migrated (same ▸ migrating) (unmoved.migration ▸ running) ends
  | walk running busy => exact .walk (unmoved.migration ▸ running) busy
  | @ssdTake idx poll waiting =>
      obtain ⟨odd, same⟩ := unmoved.station idx
      refine .ssdTake ?_ ?_
      · rw [same]
        exact poll
      · rw [same]
        exact waiting
  | @ssdWork idx busy =>
      obtain ⟨odd, same⟩ := unmoved.station idx
      refine .ssdWork ?_
      rw [same]
      exact busy

/-! ## A search that does not end -/

/-- nvm_worker `idx` is in `mix_bitmap_next_zero_bit`, for a segment that is not full, and there is
no clear bit to be found. -/
structure Spins (s : Pipeline) (idx : SegIdx) : Prop where
  poll : (s.station idx).nvm = .poll
  takes : ∃ task station, Takes (s.station idx) task station ∧ task.type = SSD_TASK ∧
    nvmWorkerSsdTask s.m.md task idx = .spins
  allSet : ∀ i < (s.m.segment idx).bitmap.bits,
    mixBitmapTestBit (s.m.segment idx).bitmap i = true
  room : (s.m.segment idx).usedBlockNum ≠ s.m.md.perBlockNum

end Pipeline

/-- Only a write of at most one block searches for a slot. -/
theorem nvmWorkerSsdTask_spins {md : Metadata} {task : IoTask} {idx : SegIdx}
    (spins : nvmWorkerSsdTask md task idx = .spins) : opCode task = MIX_WRITE ∧
      task.len ≤ WRITE_THRESHOLD ∧ redirectWrite md task idx = .spins := by
  unfold nvmWorkerSsdTask at spins
  split at spins
  · cases spins
  · split at spins
    next write =>
      have same : redirectWrite md task idx = .spins := by
        cases result : redirectWrite md task idx with
        | spins => rfl
        | done | full =>
            rw [result] at spins
            cases spins
      refine ⟨write, ?_, same⟩
      by_contra large
      rw [redirectWrite, if_neg large] at same
      cases same
    · cases spins

/-- After a migration the search ends: all bits are clear. -/
theorem afterMigration_ends {P : Nat} {idx : SegIdx} {m : Machine} {task : IoTask}
    (ok : Indexed P ((migrationEnd m idx).segment idx)) (size : m.md.perBlockNum = P)
    (some_block : 0 < P) (bits : 0 < (m.segment idx).bitmap.bits)
    (empty : ((migrationEnd m idx).segment idx).hash.entries = []) (inRange : InRange task) :
    redirectWriteAfterMigration (migrationEnd m idx).md task idx ≠ .spins := by
  intro spins
  have size' : (migrationEnd m idx).md.perBlockNum = P := size
  have outcome := redirectWriteAfterMigration_empty (migrationEnd m idx).md (size' ▸ ok)
    (size' ▸ some_block) empty inRange
  rw [spins] at outcome
  cases outcome with
  | spins absent room allSet =>
      have cleared : ((migrationEnd m idx).md.segments idx).bitmap =
          mixBitmapClear (m.segment idx).bitmap := by
        have seg := Machine.segment_setSegment m idx
          { m.segment idx with bitmap := mixBitmapClear (m.segment idx).bitmap }
        exact congrArg Segment.bitmap seg
      rw [cleared] at allSet
      have first := allSet 0 (by rw [clear_bits]; exact bits)
      rw [testBit_clear _ bits] at first
      cases first

namespace Pipeline

variable {H P submitQueueNum capacity : Nat} {s t : Pipeline} {idx : SegIdx}

theorem Steady.spins (steady : s.Steady P H submitQueueNum) {task : IoTask} {station : Station}
    (poll : (s.station idx).nvm = .poll) (takes : Takes (s.station idx) task station)
    (type : task.type = SSD_TASK) (spins : nvmWorkerSsdTask s.m.md task idx = .spins) :
    s.Spins idx := by
  obtain ⟨-, small, spinning⟩ := nvmWorkerSsdTask_spins spins
  have ok := steady.indexes.own fun task => by rw [poll]; nofun
  have outcome := redirectWrite_small ok (Indexes.taken steady.fits takes type) small
  rw [spinning] at outcome
  cases outcome with
  | spins absent room allSet => exact ⟨poll, ⟨task, station, takes, type, spins⟩, allSet, room⟩

/-! ## The helper goes on -/

/-- What the turn of a helper comes to: the weight is less, or it has come closer.  Or an nvm_worker
searches for ever. -/
def GoesOn (H submitQueueNum capacity : Nat) (s : Pipeline) (turn : Turn) (k : Nat) : Prop :=
  (∃ idx, s.Spins idx) ∨ ∃ t, s.step submitQueueNum capacity turn = some t ∧
    (t.weight H submitQueueNum < s.weight H submitQueueNum ∨
      t.weight H submitQueueNum ≤ s.weight H submitQueueNum ∧
        ∃ j < k, Helps capacity submitQueueNum t turn j)

/-- A step that is more than a look. -/
theorem Steady.works (steady : s.Steady P H submitQueueNum) {turn : Turn} {k : Nat}
    (stepped : s.step submitQueueNum capacity turn = some t)
    (more : ¬ Looks submitQueueNum s turn t) : s.GoesOn H submitQueueNum capacity turn k :=
  .inr ⟨t, stepped, .inl ((steady.weight_lt stepped).resolve_right more)⟩

/-- A worker that looks is polling. -/
theorem Looks.poll (looks : Looks submitQueueNum s (.nvm idx) t) : (t.station idx).nvm = .poll := by
  cases looks with
  | @turn _ poll odd =>
      show (Function.update s.station idx { s.station idx with odd := odd } idx).nvm = .poll
      rwa [Function.update_self]

theorem Looks.polls (looks : Looks submitQueueNum s (.nvm idx) t) : (s.station idx).nvm = .poll := by
  cases looks with
  | turn poll => exact poll

theorem Looks.scheduler (looks : Looks submitQueueNum s .scheduler t) :
    s.hand = [] ∧ s.submitQueue s.idx = [] := by
  cases looks with
  | skip hand queue => exact ⟨hand, queue⟩

/-- A worker that does not poll does something. -/
theorem Steady.busy_works (steady : s.Steady P H submitQueueNum) {k : Nat}
    (stepped : ∃ t, s.step submitQueueNum capacity (.nvm idx) = some t)
    (busy : (s.station idx).nvm ≠ .poll) : s.GoesOn H submitQueueNum capacity (.nvm idx) k := by
  obtain ⟨t, stepped⟩ := stepped
  exact steady.works stepped fun looks => busy looks.polls

/-- So does the scheduler, with a task in its hand or in its queue. -/
theorem Steady.scheduler_works (steady : s.Steady P H submitQueueNum) {k : Nat}
    (stepped : ∃ t, s.step submitQueueNum capacity .scheduler = some t)
    (work : s.hand ≠ [] ∨ s.submitQueue s.idx ≠ []) :
    s.GoesOn H submitQueueNum capacity .scheduler k := by
  obtain ⟨t, stepped⟩ := stepped
  refine steady.works stepped fun looks => ?_
  exact work.elim (fun hand => hand looks.scheduler.1) fun queue => queue looks.scheduler.2

/-- At a queue with a task, the nvm_worker takes it. -/
theorem pollStep_takes {task : IoTask} {rest : List IoTask}
    (waiting : (s.station idx).queue = task :: rest) :
    ∃ station, Takes (s.station idx) task station ∧ s.pollStep idx = s.begin idx station task := by
  unfold Station.queue at waiting
  unfold pollStep
  cases odd : (s.station idx).odd with
  | true =>
      rw [odd] at waiting
      have queue : (s.station idx).nvmQueue = task :: rest := waiting
      exact ⟨_, .nvm odd queue, by simp [odd, queue]⟩
  | false =>
      rw [odd] at waiting
      have queue : (s.station idx).bufferQueue = task :: rest := waiting
      exact ⟨_, .buffer odd queue, by simp [odd, queue]⟩

theorem begin_busy {station : Station} {task : IoTask} (begun : s.begin idx station task = some t) :
    (t.station idx).nvm ≠ .poll := by
  have gone {pc : NvmPc} (busy : pc ≠ .poll) :
      (Function.update s.station idx { station with nvm := pc } idx).nvm ≠ .poll := by
    rwa [Function.update_self]
  unfold begin at begun
  split at begun
  · cases begun
    exact gone nofun
  · split at begun
    · rcases resume_cases begun with ⟨md, actions, ret, -, rfl⟩ | ⟨-, rfl⟩
      · exact gone nofun
      · exact gone nofun
    · cases begun
      exact gone nofun

theorem Steady.take (steady : s.Steady P H submitQueueNum) {k : Nat}
    (poll : (s.station idx).nvm = .poll) (waiting : (s.station idx).queue ≠ []) :
    s.GoesOn H submitQueueNum capacity (.nvm idx) k := by
  obtain ⟨task, rest, queue⟩ := List.exists_cons_of_ne_nil waiting
  obtain ⟨station, takes, polls⟩ := pollStep_takes queue
  have stepped : s.step submitQueueNum capacity (.nvm idx) = s.begin idx station task := by
    show s.nvmStep capacity idx = _
    unfold nvmStep
    rw [poll]
    exact polls
  cases begun : s.begin idx station task with
  | some t => exact steady.works (stepped.trans begun) fun looks => begin_busy begun looks.poll
  | none =>
      unfold begin at begun
      split at begun
      · cases begun
      · split at begun
        next type =>
          refine .inl ⟨idx, steady.spins poll takes type ?_⟩
          cases result : nvmWorkerSsdTask s.m.md task idx with
          | spins => rfl
          | done | full =>
              rw [result] at begun
              cases begun
        · cases begun

/-- At an empty queue, with a task in the other, the nvm_worker turns to that one. -/
theorem turns_over (poll : (s.station idx).nvm = .poll) (here : (s.station idx).queue = [])
    (waiting : (s.station idx).bufferQueue ≠ [] ∨ (s.station idx).nvmQueue ≠ []) :
    s.step submitQueueNum capacity (.nvm idx) =
        some (s.setStation idx { s.station idx with odd := !(s.station idx).odd }) ∧
      ((s.setStation idx { s.station idx with odd := !(s.station idx).odd }).station idx).queue ≠
        [] := by
  have next : ((s.setStation idx { s.station idx with odd := !(s.station idx).odd }).station idx) =
      { s.station idx with odd := !(s.station idx).odd } := Function.update_self ..
  rw [next]
  cases odd : (s.station idx).odd with
  | true =>
      have empty : (s.station idx).nvmQueue = [] := by
        simpa only [Station.queue, odd, if_true] using here
      exact ⟨by simp [step, nvmStep, poll, pollStep, odd, empty],
        by simpa [Station.queue, empty] using waiting⟩
  | false =>
      have empty : (s.station idx).bufferQueue = [] := by simpa [Station.queue, odd] using here
      exact ⟨by simp [step, nvmStep, poll, pollStep, odd, empty],
        by simpa [Station.queue, empty] using waiting⟩

/-- With room in the queue of its ssd_worker, an nvm_worker does its next deed. -/
theorem deed_enabled {task : IoTask} {deeds : List Deed}
    (doing : (s.station idx).nvm = .doing task deeds)
    (room : (s.station idx).ssdQueue.length < capacity) :
    ∃ t, s.step submitQueueNum capacity (.nvm idx) = some t := by
  simp only [step, nvmStep, doing]
  cases deeds with
  | nil => exact ⟨_, rfl⟩
  | cons deed rest =>
      cases deed with
      | nvmRead | nvmWrite => exact ⟨_, rfl⟩
      | act a =>
          cases a with
          | postTaskToSsd posted => exact ⟨_, by simp only [perform, room, if_true]; rfl⟩
          | readFromBuffer | writeToBuffer | bufferClear | addRet | nvmWriteBlockCompleted =>
              exact ⟨_, rfl⟩

/-- When all migrate threads are done, the worker that waits for them goes on with its task. -/
theorem Steady.migrated_enabled (steady : s.Steady P H submitQueueNum) {task : IoTask}
    {pc : Fin MIGRATE_THREAD_NUM → MigratePc} (migrating : (s.station idx).nvm = .migrating task)
    (running : s.migration = some (idx, pc)) (ends : ∀ t, pc t = .done) :
    ∃ t, s.step submitQueueNum capacity (.nvm idx) = some t := by
  obtain ⟨ok, empty⟩ := (steady.indexes.emptying idx pc running).ended ends
  have returns := afterMigration_ends ok steady.indexes.perBlockNum steady.some_block
    (steady.bits idx) empty (steady.indexes.inRange idx task (.inr migrating))
  simp only [Pipeline.step, nvmStep, migrating, Pipeline.endMigration, running, Option.bind_some,
    ends, implies_true, if_true]
  cases result : redirectWriteAfterMigration (migrationEnd s.m idx).md task idx with
  | done => exact ⟨_, rfl⟩
  | full => exact ⟨_, rfl⟩
  | spins => exact absurd result returns

theorem ssd_enabled (busy : (s.station idx).ssd ≠ .poll) :
    ∃ t, s.step submitQueueNum capacity (.ssd idx) = some t := by
  simp only [step, ssdStep]
  cases at_ : (s.station idx).ssd with
  | poll => exact absurd at_ busy
  | execute | staged | moved => exact ⟨_, rfl⟩

/-- **The helper helps.** -/
theorem Helps.progress (room : 0 < capacity) (steady : s.Steady P H submitQueueNum) {turn : Turn}
    {k : Nat} (helps : Helps capacity submitQueueNum s turn k) :
    s.GoesOn H submitQueueNum capacity turn k := by
  cases helps with
  | @post i request rest next empty =>
      have queue : i < submitQueueNum :=
        steady.below (steady.toPost i request (next ▸ List.mem_cons_self)).1
      obtain ⟨t, stepped⟩ : ∃ t, s.step submitQueueNum capacity (.post i) = some t :=
        ⟨_, by simp only [step, postStep, next, empty, List.length_nil, queue, room, and_self,
          if_true]; rfl⟩
      refine steady.works stepped fun looks => ?_
      cases looks
  | @poll k hand waiting =>
      cases queue : s.submitQueue s.idx with
      | nil =>
          have stepped : s.step submitQueueNum capacity .scheduler =
              some { s with idx := pollNext submitQueueNum s.idx } := by
            simp only [step, schedulerStep, hand, queue]
          cases k with
          | zero => exact absurd queue waiting
          | succ k =>
              have looks : Looks submitQueueNum s .scheduler _ := .skip hand queue
              refine .inr ⟨_, stepped, .inr ⟨Nat.le_of_eq looks.unmoved.weight, k, by omega, ?_⟩⟩
              exact .poll hand (by rwa [Function.iterate_succ_apply] at waiting)
      | cons task rest =>
          refine steady.scheduler_works ?_ (.inr (queue ▸ List.cons_ne_nil task rest))
          exact ⟨_, by simp only [step, schedulerStep, hand, queue]; rfl⟩
  | handNvm hand inside free =>
      refine steady.scheduler_works ?_ (.inl (hand ▸ List.cons_ne_nil _ _))
      exact ⟨_, by simp only [step, schedulerStep, hand, inside, dif_pos, free, if_true]; rfl⟩
  | handBuffer hand free =>
      refine steady.scheduler_works ?_ (.inl (hand ▸ List.cons_ne_nil _ _))
      exact ⟨_, by simp only [step, schedulerStep, hand, free, if_true]; rfl⟩
  | take poll waiting => exact steady.take poll waiting
  | @turn idx poll waiting =>
      by_cases here : (s.station idx).queue = []
      · obtain ⟨stepped, next⟩ := @turns_over submitQueueNum capacity s idx poll here waiting
        have looks : Looks submitQueueNum s (.nvm idx) _ := .turn poll (!(s.station idx).odd)
        exact .inr ⟨_, stepped, .inr ⟨Nat.le_of_eq looks.unmoved.weight, 0, Nat.one_pos,
          .take looks.poll next⟩⟩
      · exact steady.take poll here
  | deed doing free =>
      refine steady.busy_works (deed_enabled doing free) fun poll => ?_
      rw [doing] at poll
      cases poll
  | full full free =>
      refine steady.busy_works ?_ fun poll => ?_
      · exact ⟨_, by simp only [step, nvmStep, full, beginMigration, free, if_true]; rfl⟩
      · rw [full] at poll
        cases poll
  | migrated migrating running ends =>
      refine steady.busy_works (steady.migrated_enabled migrating running ends) fun poll => ?_
      rw [migrating] at poll
      cases poll
  | @walk idx pc thread running busy =>
      obtain ⟨next, moved⟩ := (steady.indexes.emptying idx pc running).enabled busy
      obtain ⟨t, stepped⟩ : ∃ t, s.step submitQueueNum capacity (.migrate thread) = some t :=
        ⟨_, by simp only [step, migrateStep, running, Option.bind_some, moved, Option.map_some]; rfl⟩
      refine steady.works stepped fun looks => ?_
      cases looks
  | @ssdTake idx poll waiting =>
      obtain ⟨task, rest, queue⟩ := List.exists_cons_of_ne_nil waiting
      obtain ⟨t, stepped⟩ : ∃ t, s.step submitQueueNum capacity (.ssd idx) = some t :=
        ⟨_, by simp only [step, ssdStep, poll, queue]; rfl⟩
      refine steady.works stepped fun looks => ?_
      cases looks
  | ssdWork busy =>
      obtain ⟨t, stepped⟩ := @ssd_enabled submitQueueNum capacity s _ busy
      refine steady.works stepped fun looks => ?_
      cases looks

end Pipeline

end Mixdk
