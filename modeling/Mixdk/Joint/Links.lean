/-
# Joint.Links -- how the pipeline and the rounds go together

The nvm_worker that has the mutex is at a full segment, or waits for its migration; the pipeline is in a
migration from the begin of a round to its unlock; and a migrate thread that has counted itself is at the
end of its walk (`Linked`).  So a thread walks the segment whose index it has read (`Linked.drains`), and
when the count is full every walk is at its end.
-/
import Mixdk.Joint.System
import Mixdk.Pipeline.Rest

namespace Mixdk

open Transition

set_option autoImplicit false

/-- A thread at the end of its walk stays there. -/
theorem MigrateMove.busy {T : Nat} {idx : SegIdx} {thread : Fin T} {m m' : Machine}
    {p p' : MigratePc} (move : MigrateMove idx thread m p m' p') : p ≠ .done := by
  rintro rfl
  cases move

namespace Pipeline

variable {submitQueueNum capacity : Nat} {s t : Pipeline} {idx : SegIdx}

/-- Where no nvm_worker begins or ends a migration, the migrate threads only walk on. -/
theorem step_migration {turn : Pipeline.Turn} (stepped : s.step submitQueueNum capacity turn = some t)
    (quiet : ∀ idx, turn = .nvm idx → (∀ task, (s.station idx).nvm ≠ .full task) ∧
      ∀ task, (s.station idx).nvm ≠ .migrating task) :
    t.migration = s.migration ∨ ∃ idx pc next, s.migration = some (idx, pc) ∧
      t.migration = some (idx, next) ∧ ∀ thread, pc thread = .done → next thread = .done := by
  cases step_cases stepped with
  | front step =>
      left
      cases step <;> rfl
  | nvm idx is step =>
      left
      obtain ⟨notFull, notMigrating⟩ := quiet idx is
      cases step with
      | beginMigration full => exact absurd full (notFull _)
      | endMigration migrating => exact absurd migrating (notMigrating _)
      | turn | nvmTask | ssdTask | full | noTask | postSsd | act | nvmRead | nvmWrite | finish => rfl
  | ssd idx is step =>
      left
      cases step <;> rfl
  | @migrate idx pc next thread is running moved result =>
      subst result
      refine .inr ⟨idx, pc, next.pc, running, rfl, fun other done => ?_⟩
      obtain ⟨p', move, moves⟩ := migrateStep_eq_some moved
      have apart : other ≠ thread := by
        rintro rfl
        exact move.busy done
      rw [moves, Function.update_of_ne apart]
      exact done

/-- The begin of a migration. -/
theorem step_begins {task : IoTask} (full : (s.station idx).nvm = .full task)
    (stepped : s.step submitQueueNum capacity (.nvm idx) = some t) :
    s.migration = none ∧ t.migration = some (idx, fun thread => .pop thread) := by
  simp only [step, nvmStep, full, beginMigration] at stepped
  split at stepped
  next free =>
    cases stepped
    exact ⟨free, rfl⟩
  next => cases stepped

/-- And its end. -/
theorem step_ends {task : IoTask} (migrating : (s.station idx).nvm = .migrating task)
    (stepped : s.step submitQueueNum capacity (.nvm idx) = some t) : t.migration = none := by
  simp only [step, nvmStep, migrating, endMigration] at stepped
  obtain ⟨⟨j, pc⟩, -, stepped⟩ := Option.bind_eq_some_iff.1 stepped
  split at stepped
  · rcases resume_cases stepped with ⟨md, actions, ret, -, rfl⟩ | ⟨-, rfl⟩
    · rfl
    · rfl
  · cases stepped

end Pipeline

namespace Joint

/-- How the pipeline and the round go together. -/
structure Linked (s : Joint) : Prop where
  /-- Who is before the begin of a round is at a full segment, and has waited. -/
  locked : ∀ w, s.rounds.worker w = .locked →
    (∃ task, (s.pipe.station w).nvm = .full task) ∧ s.waited w = true
  /-- From the begin to the unlock the pipeline is in a migration. -/
  running : ∀ w, (s.rounds.worker w = .migrating ∨ s.rounds.worker w = .ended) ↔
    ∃ pc, s.pipe.migration = some (w, pc)
  /-- Who counts itself is at the end of its walk. -/
  done : ∀ w pc t, s.pipe.migration = some (w, pc) →
    (s.rounds.counted t ≠ none ∨ ∃ idx, s.rounds.thread t = .count idx) → pc t = .done

/-- What holds in every state of a run. -/
structure Steady (P H submitQueueNum : Nat) (s : Joint) : Prop where
  pipe : s.pipe.Steady P H submitQueueNum
  rounds : Rounds.Inv s.rounds
  linked : s.Linked

section

variable {P H submitQueueNum capacity : Nat} {s t : Joint} {idx : SegIdx}

/-! ## Steps of the pipeline alone -/

/-- The round stays as it is, and so do the workers in it and the walks at their end. -/
theorem Linked.pipe (linked : s.Linked) {turn : Pipeline.Turn} {pipe : Pipeline}
    (stepped : s.pipe.step submitQueueNum capacity turn = some pipe)
    (quiet : ∀ idx, turn = .nvm idx → (∀ task, (s.pipe.station idx).nvm ≠ .full task) ∧
      ∀ task, (s.pipe.station idx).nvm ≠ .migrating task) {answer : SegIdx → Option Bool} :
    Linked { s with pipe := pipe, answer := answer } := by
  have migration := Pipeline.step_migration stepped quiet
  refine ⟨fun w locked => ?_, fun w => ?_, fun w pc thread running counted => ?_⟩
  · obtain ⟨⟨task, full⟩, waited⟩ := linked.locked w locked
    have other : turn ≠ .nvm w := fun is => (quiet w is).1 task full
    exact ⟨⟨task, (Pipeline.step_appended stepped other).nvm.trans full⟩, waited⟩
  · rw [linked.running w]
    rcases migration with same | ⟨idx, pc, next, before, after, -⟩
    · dsimp only
      rw [same]
    · dsimp only
      rw [before, after]
      exact ⟨fun ⟨_, is⟩ => ⟨next, by cases is; rfl⟩, fun ⟨_, is⟩ => ⟨pc, by cases is; rfl⟩⟩
  · rcases migration with same | ⟨idx, pc', next, before, after, still⟩
    · exact linked.done w pc thread (same ▸ running) counted
    · change pipe.migration = some (w, pc) at running
      rw [after] at running
      cases running
      exact still thread (linked.done w pc' thread before counted)

theorem Plain.quiet {turn : Pipeline.Turn} (plain : s.Plain turn) (idx : SegIdx) (is : turn = .nvm idx) :
    (∀ task, (s.pipe.station idx).nvm ≠ .full task) ∧
      ∀ task, (s.pipe.station idx).nvm ≠ .migrating task := by
  subst is
  exact plain

/-! ## Steps of the nvm_workers -/

theorem Linked.lock (linked : s.Linked) (inv : Rounds.Inv s.rounds) {task : IoTask}
    {rounds : Rounds.State MIGRATE_THREAD_NUM} (full : (s.pipe.station idx).nvm = .full task)
    (waited : s.waited idx = true) (locked : Rounds.step s.rounds (.lock idx) = some rounds) :
    Linked { s with rounds := rounds } := by
  cases Rounds.step_cases locked with
  | lock _ free =>
      have idle := inv.free.1 free
      have nobody (w : SegIdx) (pc : Fin MIGRATE_THREAD_NUM → MigratePc) :
          ¬ s.pipe.migration = some (w, pc) := by
        intro running
        rcases (linked.running w).2 ⟨pc, running⟩ with at_ | at_ <;> rw [idle w] at at_ <;> cases at_
      refine ⟨fun w at_ => ?_, fun w => ?_, fun w pc _ running => absurd running (nobody w pc)⟩
      · by_cases here : w = idx
        · subst here
          exact ⟨⟨task, full⟩, waited⟩
        · change Function.update s.rounds.worker idx .locked w = .locked at at_
          rw [Function.update_of_ne here, idle w] at at_
          cases at_
      · refine iff_of_false (fun at_ => ?_) fun running => running.elim (nobody w)
        change Function.update s.rounds.worker idx .locked w = .migrating ∨
          Function.update s.rounds.worker idx .locked w = .ended at at_
        by_cases here : w = idx
        · subst here
          rw [Function.update_self] at at_
          rcases at_ with at_ | at_ <;> cases at_
        · rw [Function.update_of_ne here, idle w] at at_
          rcases at_ with at_ | at_ <;> cases at_

theorem Linked.begin (inv : Rounds.Inv s.rounds) {task : IoTask}
    {rounds : Rounds.State MIGRATE_THREAD_NUM} {pipe : Pipeline}
    (full : (s.pipe.station idx).nvm = .full task)
    (begun : Rounds.step s.rounds (.begin idx) = some rounds)
    (stepped : s.pipe.step submitQueueNum capacity (.nvm idx) = some pipe)
    {waited : SegIdx → Bool} : Linked { s with pipe := pipe, rounds := rounds, waited := waited } := by
  obtain ⟨-, after⟩ := Pipeline.step_begins full stepped
  cases Rounds.step_cases begun with
  | begin locked =>
      have busy : s.rounds.worker idx ≠ .idle := by rw [locked]; nofun
      have worker (w : SegIdx) :
          ((s.rounds.segmentMigrationBegin idx).setWorker idx .migrating).worker w =
            if w = idx then .migrating else .idle := by
        change Function.update s.rounds.worker idx .migrating w = _
        by_cases here : w = idx
        · rw [here, Function.update_self, if_pos rfl]
        · rw [Function.update_of_ne here, if_neg here, inv.others busy w here]
      refine ⟨fun w at_ => ?_, fun w => ?_, fun w pc thread _ counted => ?_⟩
      · change ((s.rounds.segmentMigrationBegin idx).setWorker idx .migrating).worker w = _ at at_
        rw [worker w] at at_
        split at at_ <;> cases at_
      · dsimp only
        rw [worker w, after]
        by_cases here : w = idx
        · subst here
          simp
        · simp [here, Ne.symm here]
      · -- nobody has counted itself for the new round
        have resting := inv.resting busy (by rw [locked]; nofun) thread
        rcases counted with counted | ⟨j, at_⟩
        · exact absurd rfl counted
        · change s.rounds.thread thread = .count j at at_
          cases resting with
          | see pc | reset pc =>
              rw [pc] at at_
              cases at_

theorem Linked.finish (linked : s.Linked) {rounds : Rounds.State MIGRATE_THREAD_NUM}
    (finished : Rounds.step s.rounds (.finish idx) = some rounds) :
    Linked { s with rounds := rounds } := by
  cases Rounds.step_cases finished with
  | finish migrating =>
      refine ⟨fun w at_ => ?_, fun w => ?_, linked.done⟩
      · change Function.update s.rounds.worker idx .ended w = .locked at at_
        by_cases here : w = idx
        · rw [here, Function.update_self] at at_
          cases at_
        · rw [Function.update_of_ne here] at at_
          exact linked.locked w at_
      · rw [← linked.running w]
        change Function.update s.rounds.worker idx .ended w = .migrating ∨
          Function.update s.rounds.worker idx .ended w = .ended ↔ _
        by_cases here : w = idx
        · rw [here, Function.update_self, migrating]
          simp
        · rw [Function.update_of_ne here]

theorem Linked.unlock (inv : Rounds.Inv s.rounds) {task : IoTask}
    {rounds : Rounds.State MIGRATE_THREAD_NUM} {pipe : Pipeline}
    (migrating : (s.pipe.station idx).nvm = .migrating task)
    (unlocked : Rounds.step s.rounds (.unlock idx) = some rounds)
    (stepped : s.pipe.step submitQueueNum capacity (.nvm idx) = some pipe) :
    Linked { s with pipe := pipe, rounds := rounds } := by
  have after := Pipeline.step_ends migrating stepped
  have inv' := inv.step unlocked
  cases Rounds.step_cases unlocked with
  | unlock =>
      have idle : ∀ w, Function.update s.rounds.worker idx .idle w = .idle := inv'.free.1 rfl
      have nobody (w : SegIdx) (pc : Fin MIGRATE_THREAD_NUM → MigratePc) :
          ¬ pipe.migration = some (w, pc) := by
        rw [after]
        nofun
      refine ⟨fun w at_ => ?_, fun w => ?_, fun w pc _ running => absurd running (nobody w pc)⟩
      · change Function.update s.rounds.worker idx .idle w = .locked at at_
        rw [idle w] at at_
        cases at_
      · refine iff_of_false (fun at_ => ?_) fun running => running.elim (nobody w)
        change Function.update s.rounds.worker idx .idle w = .migrating ∨
          Function.update s.rounds.worker idx .idle w = .ended at at_
        rw [idle w] at at_
        rcases at_ with at_ | at_ <;> cases at_

/-! ## Steps of the migrate threads -/

theorem Linked.thread (linked : s.Linked) {thread : Fin MIGRATE_THREAD_NUM}
    {rounds : Rounds.State MIGRATE_THREAD_NUM}
    (walked : ∀ idx, s.rounds.thread thread = .drain idx → s.walked thread = true)
    (moved : Rounds.step s.rounds (.thread thread) = some rounds) :
    Linked { s with rounds := rounds } := by
  have step := Rounds.threadStep_of moved
  obtain ⟨worker, -, -⟩ := step.worker
  refine ⟨fun w at_ => ?_, fun w => ?_, fun w pc other running counted => ?_⟩
  · change rounds.worker w = .locked at at_
    rw [worker] at at_
    exact linked.locked w at_
  · dsimp only
    rw [worker]
    exact linked.running w
  · change s.pipe.migration = some (w, pc) at running
    change rounds.counted other ≠ none ∨ ∃ idx, rounds.thread other = .count idx at counted
    by_cases here : other = thread
    · subst here
      cases step with
      | see at_ | readIdx at_ | reset at_ =>
          refine linked.done w pc other running (counted.imp_right fun ⟨idx, there⟩ => ?_)
          change Function.update s.rounds.thread other _ other = .count idx at there
          rw [Function.update_self] at there
          cases there
      | drain idx at_ =>
          have ends := walked idx at_
          rw [Joint.walked, running] at ends
          exact of_decide_eq_true ends
      | count idx at_ => exact linked.done w pc other running (.inr ⟨idx, at_⟩)
    · have aside := step.aside here
      rw [aside.counted, aside.thread] at counted
      exact linked.done w pc other running counted

/-! ## Runs -/

theorem Linked.step (linked : s.Linked) (inv : Rounds.Inv s.rounds) {turn : Pipeline.Turn}
    (cases_ : StepCases submitQueueNum capacity s turn t) : t.Linked := by
  cases cases_ with
  | pipe plain stepped => exact linked.pipe stepped plain.quiet
  | take _ _ stepped => exact linked.pipe stepped nofun
  | @test idx task full waits =>
      refine ⟨fun w locked => ?_, linked.running, linked.done⟩
      obtain ⟨there, waited⟩ := linked.locked w locked
      have other : w ≠ idx := by
        rintro rfl
        rw [waits] at waited
        cases waited
      exact ⟨there, (Function.update_of_ne other ..).trans waited⟩
  | lock full waited locked => exact linked.lock inv full waited locked
  | begin full _ begun stepped => exact .begin inv full begun stepped
  | finish _ finished => exact linked.finish finished
  | unlock migrating unlocked stepped => exact .unlock inv migrating unlocked stepped
  | set | found => exact ⟨linked.locked, linked.running, linked.done⟩
  | thread walked moved => exact linked.thread walked moved

theorem Steady.step (steady : s.Steady P H submitQueueNum) {turn : Pipeline.Turn}
    (stepped : s.step submitQueueNum capacity turn = some t) : t.Steady P H submitQueueNum := by
  have cases_ := step_cases stepped
  refine ⟨?_, ?_, steady.linked.step steady.rounds cases_⟩
  · rcases cases_.pipe_step with same | moved
    · exact same ▸ steady.pipe
    · exact steady.pipe.step moved
  · rcases cases_.rounds_step with same | ⟨label, moved⟩
    · exact same ▸ steady.rounds
    · exact steady.rounds.step moved

theorem Steady.start {m : Machine} {region : Nat → Block} {requests : Nat → List Request}
    (segmentIdx : SegIdx)
    (pipe : (Pipeline.start m region requests).Steady P H submitQueueNum) :
    (Joint.start m region requests segmentIdx).Steady P H submitQueueNum where
  pipe := pipe
  rounds := Rounds.inv_init _ segmentIdx
  linked :=
    { locked := fun _ at_ => nomatch at_
      running := fun _ => iff_of_false (fun at_ => at_.elim nofun nofun) nofun
      done := fun _ _ _ running => nomatch running }

/-- A migrate thread walks the segment whose index it has read. -/
theorem Steady.drains (steady : s.Steady P H submitQueueNum) {thread : Fin MIGRATE_THREAD_NUM}
    (at_ : s.rounds.thread thread = .drain idx) : ∃ pc, s.pipe.migration = some (idx, pc) := by
  have notResting : ¬ Rounds.Resting s.rounds thread := by
    intro resting
    cases resting with
    | see pc | reset pc =>
        rw [at_] at pc
        cases pc
  have some_ : ∃ w, s.rounds.worker w = .migrating := by
    by_contra nobody
    rw [not_exists] at nobody
    exact notResting (steady.rounds.between nobody thread)
  obtain ⟨w, migrating⟩ := some_
  rcases (steady.rounds.inRound w migrating).threads thread with working | reported | missed
  · cases working with
    | drain pc =>
        rw [at_] at pc
        cases pc
        exact (steady.linked.running idx).1 (.inl migrating)
    | see pc | readIdx pc | count pc =>
        rw [at_] at pc
        cases pc
  · exact absurd reported.resting notResting
  · exact absurd missed.resting notResting

end

end Joint

end Mixdk
