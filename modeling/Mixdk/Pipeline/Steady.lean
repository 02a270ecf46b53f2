/-
# Pipeline.Steady -- what holds in every state of a run

For the question whether a run comes to an end: the invariants of the index and of the sizes of tasks,
the shape of the tables, which never changes (`SameShape`), and that what is still to come has a queue to
go to (`Pipeline.Reaches`).  In such a state every step lowers the weight or only looks
(`Steady.weight_lt`).
-/
import Mixdk.Pipeline.Batch
import Mixdk.Pipeline.Weight

namespace Mixdk

open Transition

set_option autoImplicit false

/-- The queue the nvm_worker is at. -/
def Station.queue (station : Station) : List IoTask :=
  if station.odd then station.nvmQueue else station.bufferQueue

/-! ## What never changes of a segment -/

/-- The table has as many buckets, and the bitmap as many bits. -/
structure SameShape (seg seg' : Segment) : Prop where
  size : seg'.hash.hashSize = seg.hash.hashSize
  bits : seg'.bitmap.bits = seg.bitmap.bits

theorem SameShape.refl (seg : Segment) : SameShape seg seg := ⟨rfl, rfl⟩

theorem SameShape.trans {a b c : Segment} (first : SameShape a b) (second : SameShape b c) :
    SameShape a c := ⟨second.size.trans first.size, second.bits.trans first.bits⟩

section

variable {md md' : Metadata} {idx : SegIdx} {task : IoTask} {actions : List Action} {ret : Nat}

theorem SmallWrite.sameShape (outcome : SmallWrite md task idx (.done md' actions ret)) :
    SameShape (md.segments idx) (md'.segments idx) := by
  cases outcome with
  | overwrite => exact .refl _
  | enter =>
      rw [Metadata.setSegment_self]
      exact ⟨put_hashSize .., allocBitmap_bits ..⟩
  | leak =>
      rw [Metadata.setSegment_self]
      exact ⟨rfl, allocBitmap_bits ..⟩

theorem nvmWorkerSsdTask_sameShape (ok : Indexed md.perBlockNum (md.segments idx))
    (inRange : InRange task) (result : nvmWorkerSsdTask md task idx = .done md' actions ret) :
    SameShape (md.segments idx) (md'.segments idx) := by
  refine ⟨(nvmWorkerSsdTask_oneEntry ok inRange result).size, ?_⟩
  unfold nvmWorkerSsdTask at result
  split at result
  · cases result
    rfl
  · split at result
    · obtain ⟨before, written⟩ := counted_eq_done result
      by_cases small : task.len ≤ WRITE_THRESHOLD
      · have outcome := redirectWrite_small ok inRange small
        rw [written] at outcome
        exact outcome.sameShape.bits
      · rw [redirectWrite, if_neg small] at written
        cases written
        obtain ⟨removed, -, cleared⟩ := clearBlockLoop_spec task.len task.offset md ok inRange.2
        exact cleared.bits
    · cases result
      rfl

theorem MigrateMove.sameShape {T : Nat} {t : Fin T} {m m' : Machine} {p p' : MigratePc}
    (move : MigrateMove idx t m p m' p') : SameShape (m.segment idx) (m'.segment idx) := by
  refine ⟨move.size, ?_⟩
  cases move with
  | take | count => rw [Machine.segment_setSegment]
  | next | leave | read | stage | flush | clear => rfl

end

namespace Pipeline

variable {H P submitQueueNum capacity : Nat} {s t : Pipeline} {idx : SegIdx}

theorem nvm_sameShape (indexes : s.Indexes P) (fits : s.Fits) (some_block : 0 < P)
    (step : NvmStep s idx t)
    (ends : ∀ task, (s.station idx).nvm = .migrating task →
      ∃ pc, s.migration = some (idx, pc) ∧ ∀ thread, pc thread = .done) :
    SameShape (s.m.segment idx) (t.m.segment idx) := by
  cases step with
  | turn | nvmTask | noTask | postSsd | nvmRead | nvmWrite | finish | full | beginMigration =>
      exact .refl _
  | act =>
      rw [Machine.segment, Machine.segment, perform_md]
      exact .refl _
  | ssdTask poll takes type result =>
      have polls : ∀ task, (s.station idx).nvm ≠ .migrating task := by
        intro task at_
        rw [poll] at at_
        cases at_
      exact nvmWorkerSsdTask_sameShape (indexes.own polls) (Indexes.taken fits takes type) result
  | @endMigration task md _ _ migrating result =>
      obtain ⟨pc, running, all⟩ := ends task migrating
      obtain ⟨ok, empty⟩ := (indexes.emptying idx pc running).ended all
      have size : (migrationEnd s.m idx).md.perBlockNum = P := indexes.perBlockNum
      obtain ⟨before, written⟩ := counted_eq_done result
      have outcome := redirectWriteAfterMigration_empty (migrationEnd s.m idx).md
        (size ▸ ok) (size ▸ some_block) empty (indexes.inRange idx task (.inr migrating))
      rw [written] at outcome
      have ended : SameShape (s.m.segment idx) ((migrationEnd s.m idx).segment idx) := by
        rw [migrationEnd, Machine.segment_setSegment]
        exact ⟨rfl, clear_bits _⟩
      exact ended.trans outcome.sameShape

/-- No step changes the shape of a segment. -/
theorem step_sameShape (indexes : s.Indexes P) (fits : s.Fits) (some_block : 0 < P) {turn : Turn}
    (stepped : s.step submitQueueNum capacity turn = some t) (j : SegIdx) :
    SameShape (s.m.segment j) (t.m.segment j) := by
  by_cases changed : t.m.segment j = s.m.segment j
  · rw [changed]
    exact .refl _
  -- only its owner changes it
  cases step_cases stepped with
  | front step =>
      have same : t.m = s.m := by cases step <;> rfl
      rw [same]
      exact .refl _
  | nvm i is step =>
      subst is
      have waits := fun task (at_ : (s.station i).nvm = .migrating task) =>
        indexes.waited at_ stepped
      have here : j = i := by
        rcases indexes.step_owns fits some_block stepped changed with ⟨is, -⟩ | ⟨_, _, is, -⟩
        · cases is
          rfl
        · cases is
      subst here
      exact nvm_sameShape indexes fits some_block step waits
  | ssd i is step =>
      subst is
      rcases indexes.step_owns fits some_block stepped changed with ⟨is, -⟩ | ⟨_, _, is, -⟩ <;>
        cases is
  | @migrate i pc next thread is running moved result =>
      subst is result
      have here : j = i := by
        rcases indexes.step_owns fits some_block stepped changed with ⟨is, -⟩ | ⟨_, _, is, there⟩
        · cases is
        · rw [running] at there
          cases there
          rfl
      subst here
      obtain ⟨p', move, -⟩ := migrateStep_eq_some moved
      exact move.sameShape

/-! ## The invariant of a run -/

/-- A request whose tasks have a queue to go to: its submit queue is polled, and it has an NVM
queue of the same number or does not need one. -/
def Reaches (submitQueueNum i : Nat) (task : IoTask) : Prop :=
  i < pollPeriod submitQueueNum ∧ (task.queueIdx < SEGMENT_NUM ∨ SCHEDULER_THRESHOLD ≤ task.offset)

/-- What holds in every state of a run, with tables of at most `H` buckets. -/
structure Steady (P H submitQueueNum : Nat) (s : Pipeline) : Prop where
  fits : s.Fits
  indexes : s.Indexes P
  some_block : 0 < P
  size : ∀ idx, (s.m.segment idx).hash.hashSize ≤ H
  bits : ∀ idx, 0 < (s.m.segment idx).bitmap.bits
  queues : 0 < submitQueueNum ∧ submitQueueNum < 2 ^ 8
  polled : s.idx < pollPeriod submitQueueNum
  toPost : ∀ i, ∀ request ∈ s.toPost i, Reaches submitQueueNum i (request.task i)
  submitted : ∀ i, ∀ task ∈ s.submitQueue i, Reaches submitQueueNum i task
  hand : ∀ task, .nvm task ∈ s.hand → task.queueIdx < SEGMENT_NUM

/-- A task for an NVM queue is not one of a block of the SSD. -/
theorem doSchedule_reaches {i : Nat} {task posted : IoTask} (reaches : Reaches submitQueueNum i task)
    (member : .nvm posted ∈ doSchedule (handleTask task)) : posted.queueIdx < SEGMENT_NUM := by
  rcases reaches.2 with inside | above
  · unfold doSchedule at member
    split at member
    · cases List.mem_singleton.1 member
      unfold handleTask
      split
      · exact inside
      · split <;> exact inside
    · split at member
      · obtain ⟨part, -, same⟩ := List.mem_map.1 member
        cases same
      · cases member
  · have ssd : (handleTask task).type = SSD_TASK := by
      unfold handleTask
      rw [if_neg (by omega), if_pos above]
    rw [doSchedule_ssd ssd] at member
    obtain ⟨part, -, same⟩ := List.mem_map.1 member
    cases same

namespace Steady

theorem below (steady : s.Steady P H submitQueueNum) {i : Nat}
    (polled : i < pollPeriod submitQueueNum) : i < submitQueueNum :=
  Nat.lt_of_lt_of_le polled (Nat.gcd_le_left _ steady.queues.1)

theorem front (steady : s.Steady P H submitQueueNum) {turn : Turn}
    (step : FrontStep submitQueueNum s turn t) :
    t.idx < pollPeriod submitQueueNum ∧
      (∀ i, ∀ request ∈ t.toPost i, Reaches submitQueueNum i (request.task i)) ∧
      (∀ i, ∀ task ∈ t.submitQueue i, Reaches submitQueueNum i task) ∧
      ∀ task, .nvm task ∈ t.hand → task.queueIdx < SEGMENT_NUM := by
  have next : pollNext submitQueueNum s.idx < pollPeriod submitQueueNum := by
    rw [pollNext_eq steady.queues.1 steady.queues.2 steady.polled]
    exact Nat.mod_lt _ (pollPeriod_pos steady.queues.1)
  cases step with
  | @post i request rest first queue =>
      have waiting := steady.toPost i
      rw [first] at waiting
      obtain ⟨here, later⟩ := List.forall_mem_cons.1 waiting
      refine ⟨steady.polled, ?_, ?_, steady.hand⟩
      · exact (Function.forall_update_iff s.toPost fun i list => ∀ r ∈ list,
          Reaches submitQueueNum i (r.task i)).2 ⟨later, fun j _ => steady.toPost j⟩
      · exact (Function.forall_update_iff s.submitQueue fun i list => ∀ task ∈ list,
          Reaches submitQueueNum i task).2 ⟨List.forall_mem_append.2
            ⟨steady.submitted i, List.forall_mem_singleton.2 here⟩, fun j _ => steady.submitted j⟩
  | free => exact ⟨steady.polled, steady.toPost, steady.submitted, steady.hand⟩
  | skip => exact ⟨next, steady.toPost, steady.submitted, steady.hand⟩
  | schedule hand queue =>
      have waiting := steady.submitted s.idx
      rw [queue] at waiting
      obtain ⟨here, later⟩ := List.forall_mem_cons.1 waiting
      refine ⟨next, steady.toPost, ?_, fun task member => doSchedule_reaches here member⟩
      exact (Function.forall_update_iff s.submitQueue fun i list => ∀ task ∈ list,
        Reaches submitQueueNum i task).2 ⟨later, fun j _ => steady.submitted j⟩
  | toNvm hand inside =>
      refine ⟨steady.polled, steady.toPost, steady.submitted, fun task member => ?_⟩
      exact steady.hand task (hand ▸ List.mem_cons_of_mem _ member)
  | toBuffer hand =>
      refine ⟨steady.polled, steady.toPost, steady.submitted, fun task member => ?_⟩
      exact steady.hand task (hand ▸ List.mem_cons_of_mem _ member)

theorem step (steady : s.Steady P H submitQueueNum) {turn : Turn}
    (stepped : s.step submitQueueNum capacity turn = some t) : t.Steady P H submitQueueNum := by
  have cases_ := step_cases stepped
  have shape := step_sameShape steady.indexes steady.fits steady.some_block stepped
  have front : t.idx < pollPeriod submitQueueNum ∧
      (∀ i, ∀ request ∈ t.toPost i, Reaches submitQueueNum i (request.task i)) ∧
      (∀ i, ∀ task ∈ t.submitQueue i, Reaches submitQueueNum i task) ∧
      ∀ task, .nvm task ∈ t.hand → task.queueIdx < SEGMENT_NUM := by
    cases cases_ with
    | front step => exact steady.front step
    | nvm i _ step => cases step <;> exact ⟨steady.polled, steady.toPost, steady.submitted, steady.hand⟩
    | ssd i _ step => cases step <;> exact ⟨steady.polled, steady.toPost, steady.submitted, steady.hand⟩
    | migrate _ _ _ _ result =>
        subst result
        exact ⟨steady.polled, steady.toPost, steady.submitted, steady.hand⟩
  obtain ⟨polled, toPost, submitted, hand⟩ := front
  exact
    { fits := steady.fits.step cases_
      indexes := steady.indexes.step steady.fits steady.some_block stepped
      some_block := steady.some_block
      size := fun j => (shape j).size ▸ steady.size j
      bits := fun j => (shape j).bits ▸ steady.bits j
      queues := steady.queues
      polled := polled
      toPost := toPost
      submitted := submitted
      hand := hand }

theorem weight_lt (steady : s.Steady P H submitQueueNum) {turn : Turn}
    (stepped : s.step submitQueueNum capacity turn = some t) :
    t.weight H submitQueueNum < s.weight H submitQueueNum ∨ Looks submitQueueNum s turn t :=
  Pipeline.weight_lt steady.indexes steady.fits steady.some_block steady.size
    (steady.below steady.polled) stepped

end Steady

end Pipeline

end Mixdk
