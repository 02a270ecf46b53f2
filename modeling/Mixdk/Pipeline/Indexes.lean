/-
# Pipeline.Indexes -- the index while every thread runs

Nothing locks the index.  It stays in order all the same, because segment `idx` has one
owner at a time: nvm_worker `idx`, or the migrate threads while that worker holds
`migrate_mutex` (`Pipeline.Indexes`).

A migration in the running pipeline is not the migration of `Migration.Drain`, which has
the machine to itself.  But a migrate thread looks at nothing outside its segment when it
decides what to do next (`migrateAction_segment`), so on the segment the two are in step
(`Emptying`), and what was proved of the one holds of the other.
-/
import Mixdk.Pipeline.Slots
import Mixdk.Index.Operations

namespace Mixdk

open Transition

set_option autoImplicit false

/-! ## The task of a worker -/

/-- A task of worker `idx` changes its own segment, and leaves it in order. -/
structure OwnSegment (idx : SegIdx) (md md' : Metadata) : Prop where
  perBlockNum : md'.perBlockNum = md.perBlockNum
  segments : ∀ j ≠ idx, md'.segments j = md.segments j
  indexed : Indexed md.perBlockNum (md'.segments idx)

section

variable {md md' : Metadata} {idx : SegIdx} {task : IoTask} {actions : List Action} {ret : Nat}

theorem OwnSegment.same (ok : Indexed md.perBlockNum (md.segments idx)) : OwnSegment idx md md :=
  ⟨rfl, fun _ _ => rfl, ok⟩

theorem OwnSegment.set {seg : Segment} (ok : Indexed md.perBlockNum seg) :
    OwnSegment idx md (md.setSegment idx seg) where
  perBlockNum := rfl
  segments := fun _ other => Metadata.setSegment_of_ne md seg other
  indexed := by rwa [Metadata.setSegment_self]

theorem SmallWrite.ownSegment (ok : Indexed md.perBlockNum (md.segments idx))
    (inRange : InRange task) (outcome : SmallWrite md task idx (.done md' actions ret)) :
    OwnSegment idx md md' := by
  cases outcome with
  | overwrite => exact .same ok
  | enter absent _ first _ => exact .set (ok.entered absent inRange.key first)
  | leak _ _ first _ => exact .set (ok.leaked first)

theorem counted_eq_done {result : WriteResult} (done : result.counted = .done md' actions ret) :
    ∃ before, result = .done md' before ret := by
  cases result with
  | done => cases done; exact ⟨_, rfl⟩
  | full | spins => cases done

theorem nvmWorkerSsdTask_ownSegment (ok : Indexed md.perBlockNum (md.segments idx))
    (inRange : InRange task) (result : nvmWorkerSsdTask md task idx = .done md' actions ret) :
    OwnSegment idx md md' := by
  unfold nvmWorkerSsdTask at result
  split at result
  · cases result
    exact .same ok
  · split at result
    · obtain ⟨before, written⟩ := counted_eq_done result
      by_cases small : task.len ≤ WRITE_THRESHOLD
      · have outcome := redirectWrite_small ok inRange small
        rw [written] at outcome
        exact outcome.ownSegment ok inRange
      · rw [redirectWrite, if_neg small] at written
        cases written
        obtain ⟨removed, -, cleared⟩ := clearBlockLoop_spec task.len task.offset md ok inRange.2
        exact ⟨cleared.perBlockNum, cleared.segments, cleared.indexed⟩
    · cases result
      exact .same ok

/-- The write that follows a migration, in any index in which its segment is in order and empty. -/
theorem redirectWriteAfterMigration_empty (md : Metadata) (ok : Indexed md.perBlockNum (md.segments idx))
    (some_block : 0 < md.perBlockNum) (empty : (md.segments idx).hash.entries = [])
    (inRange : InRange task) :
    SmallWrite md task idx (redirectWriteAfterMigration md task idx) := by
  have absent : (md.segments idx).hash.find? task.offset = none := by
    rw [ok.sound.find?_eq_none_iff ok.keys]
    intro v member
    rw [empty] at member
    cases member
  have room : (md.segments idx).usedBlockNum ≠ md.perBlockNum := by
    rw [ok.used, empty, List.length_nil]
    omega
  unfold redirectWriteAfterMigration
  cases got : mixGetNextFreeBlock md idx with
  | none => exact .spins absent room ((nextFreeBlock_none_iff ok room).1 got)
  | some found =>
      obtain ⟨z, md'⟩ := found
      obtain ⟨v, first, rfl, rfl⟩ := nextFreeBlock_some ok room got
      exact writeToNewSlot_marked ok inRange absent room first

end

/-! ## A migration among other threads -/

section

variable {T : Nat} {idx : SegIdx} {m m' : Machine} {t : Fin T} {p p' : MigratePc}

/-- What a migrate thread makes of its segment, and where it goes, depend on the segment only. -/
theorem migrateAction_segment (same : m.segment idx = m'.segment idx) (t : Fin T) (p : MigratePc) :
    (migrateAction idx t m p).map (fun next => (next.1.segment idx, next.2)) =
      (migrateAction idx t m' p).map fun next => (next.1.segment idx, next.2) := by
  cases p with
  | pop b =>
      simp only [migrateAction, same]
      split
      · simp only [Option.map_map]
        congr 1
        refine funext fun next => ?_
        obtain ⟨kv, hash⟩ := next
        dsimp only [Function.comp_apply]
        split <;> simp only [Machine.segment_setSegment]
      · simp only [Option.map_some, same]
  | count => simp only [migrateAction, Option.map_some, Machine.segment_setSegment, same]
  | read | stage | flush | clear => exact congrArg (fun seg => some (seg, _)) same
  | done => rfl

/-- A migrate thread leaves the other segments alone. -/
theorem MigrateMove.others (move : MigrateMove idx t m p m' p') :
    m'.md.perBlockNum = m.md.perBlockNum ∧ ∀ j ≠ idx, m'.segment j = m.segment j := by
  cases move with
  | take => exact ⟨rfl, fun j other => Metadata.setSegment_of_ne m.md _ other⟩
  | count => exact ⟨rfl, fun j other => Metadata.setSegment_of_ne m.md _ other⟩
  | next | leave | read | stage | flush | clear => exact ⟨rfl, fun _ _ => rfl⟩

theorem MigrateMove.size (move : MigrateMove idx t m p m' p') :
    (m'.segment idx).hash.hashSize = (m.segment idx).hash.hashSize := by
  cases move with
  | take => rw [Machine.segment_setSegment, setNode_hashSize]
  | count => rw [Machine.segment_setSegment]
  | next | leave | read | stage | flush | clear => rfl

end

/-- The migrate threads, at `pc` with the segment `seg` before them, are as in a migration
that has the machine to itself and began on an index in order. -/
def Emptying (P : Nat) (idx : SegIdx) (seg : Segment) (pc : Fin MIGRATE_THREAD_NUM → MigratePc) :
    Prop :=
  ∃ (m₀ : Machine) (s : MigrateState MIGRATE_THREAD_NUM), Indexed P (m₀.segment idx) ∧
    Draining idx m₀ s ∧ s.m.segment idx = seg ∧ s.pc = pc

namespace Emptying

variable {P : Nat} {idx : SegIdx} {m : Machine} {pc : Fin MIGRATE_THREAD_NUM → MigratePc}
  {next : MigrateState MIGRATE_THREAD_NUM} {t : Fin MIGRATE_THREAD_NUM}

theorem begin (ok : Indexed P (m.segment idx)) :
    Emptying P idx (m.segment idx) fun t => .pop t :=
  ⟨m, migrationStart m MIGRATE_THREAD_NUM, ok, .start m ok.drainable, rfl, rfl⟩

theorem step (emptying : Emptying P idx (m.segment idx) pc)
    (moved : migrateStep idx { m := m, pc := pc } t = some next) :
    Emptying P idx (next.m.segment idx) next.pc := by
  obtain ⟨m₀, s, ok, draining, same, rfl⟩ := emptying
  obtain ⟨⟨m', p'⟩, acted, rfl⟩ := Option.map_eq_some_iff.1 moved
  have agree := migrateAction_segment same t (s.pc t)
  rw [show migrateAction idx t m (s.pc t) = some (m', p') from acted, Option.map_some,
    Option.map_eq_some_iff] at agree
  obtain ⟨⟨g, q⟩, alone, result⟩ := agree
  obtain ⟨segment, rfl⟩ := Prod.mk.inj result
  refine ⟨m₀, { m := g, pc := Function.update s.pc t q }, ok,
    draining.step ok.drainable (t := t) ?_, segment, rfl⟩
  simp only [migrateStep, alone, Option.map_some]

/-- A thread that is not at its end can go on. -/
theorem enabled (emptying : Emptying P idx (m.segment idx) pc) (busy : pc t ≠ .done) :
    ∃ next, migrateStep idx { m := m, pc := pc } t = some next := by
  obtain ⟨m₀, s, ok, draining, same, rfl⟩ := emptying
  obtain ⟨s', stepped⟩ := migrateStep_enabled draining busy
  obtain ⟨next, alone, -⟩ := Option.map_eq_some_iff.1 stepped
  have agree := migrateAction_segment same t (s.pc t)
  rw [alone, Option.map_some, eq_comm, Option.map_eq_some_iff] at agree
  obtain ⟨there, acted, -⟩ := agree
  exact ⟨_, Option.map_eq_some_iff.2 ⟨there, acted, rfl⟩⟩

/-- With all threads at their end, the segment is in order and empty. -/
theorem ended (emptying : Emptying P idx (m.segment idx) pc) (ends : ∀ t, pc t = .done) :
    Indexed P ((migrationEnd m idx).segment idx) ∧
      ((migrationEnd m idx).segment idx).hash.entries = [] := by
  obtain ⟨m₀, s, ok, draining, same, rfl⟩ := emptying
  obtain ⟨⟨fin, drained⟩, -⟩ := draining
  have done := migrated_of_done drained ends
  have agree : (migrationEnd m idx).segment idx = (migrationEnd s.m idx).segment idx := by
    rw [migrationEnd, migrationEnd, Machine.segment_setSegment, Machine.segment_setSegment, same]
  rw [agree]
  exact ⟨done.indexed ok, done.entries⟩

end Emptying

/-! ## The invariant -/

theorem ssdTaskStage_md (m : Machine) (idx : SegIdx) (task : IoTask) :
    (m.ssdTaskStage idx task).md = m.md := by
  unfold Machine.ssdTaskStage
  dsimp only
  split
  · rfl
  · split <;> rfl

theorem ssdTaskMove_md (m : Machine) (idx : SegIdx) (task : IoTask) :
    (m.ssdTaskMove idx task).md = m.md := by
  unfold Machine.ssdTaskMove
  dsimp only
  split
  · rfl
  · split <;> rfl

theorem ssdTaskCount_md (m : Machine) (task : IoTask) : (m.ssdTaskCount task).md = m.md := by
  unfold Machine.ssdTaskCount
  dsimp only
  split
  · rfl
  · split <;> rfl

/-- Who owns which segment, and in what order it is. -/
structure Pipeline.Indexes (P : Nat) (s : Pipeline) : Prop where
  perBlockNum : s.m.md.perBlockNum = P
  inOrder : ∀ idx, (∀ pc, s.migration ≠ some (idx, pc)) → Indexed P (s.m.segment idx)
  emptying : ∀ idx pc, s.migration = some (idx, pc) → Emptying P idx (s.m.segment idx) pc
  owner : ∀ idx, (∃ task, (s.station idx).nvm = .migrating task) ↔
    ∃ pc, s.migration = some (idx, pc)
  inRange : ∀ idx task, (s.station idx).nvm.Migrates task → InRange task

namespace Pipeline.Indexes

variable {P submitQueueNum : Nat} {s t : Pipeline} {idx : SegIdx}

/-- A worker that is not migrating owns its segment. -/
theorem own (indexes : s.Indexes P) (working : ∀ task, (s.station idx).nvm ≠ .migrating task) :
    Indexed s.m.md.perBlockNum (s.m.md.segments idx) := by
  rw [indexes.perBlockNum]
  refine indexes.inOrder idx fun pc migration => ?_
  obtain ⟨task, migrating⟩ := (indexes.owner idx).2 ⟨pc, migration⟩
  exact working task migrating

/-- The workers are where they were, and so is the index. -/
theorem frame (indexes : s.Indexes P) (md : t.m.md = s.m.md) (migration : t.migration = s.migration)
    (nvm : ∀ j, (t.station j).nvm = (s.station j).nvm) : t.Indexes P where
  perBlockNum := md ▸ indexes.perBlockNum
  inOrder := fun j alone => by
    rw [Machine.segment, md]
    exact indexes.inOrder j (migration ▸ alone)
  emptying := fun j pc running => by
    rw [Machine.segment, md]
    exact indexes.emptying j pc (migration ▸ running)
  owner := fun j => by
    rw [nvm, migration]
    exact indexes.owner j
  inRange := fun j => by
    rw [nvm]
    exact indexes.inRange j

/-- Worker `idx`, which was not migrating, goes on to `pc` with its segment changed. -/
theorem worker (indexes : s.Indexes P) (idx : SegIdx) {station : Station}
    (stations : t.station = Function.update s.station idx station)
    (migration : t.migration = s.migration) (own : OwnSegment idx s.m.md t.m.md)
    (before : ∀ task, (s.station idx).nvm ≠ .migrating task)
    (after : ∀ task, station.nvm ≠ .migrating task)
    (inRange : ∀ task, station.nvm = .full task → InRange task) : t.Indexes P where
  perBlockNum := own.perBlockNum.trans indexes.perBlockNum
  inOrder := fun j alone => by
    by_cases same : j = idx
    · subst same
      exact indexes.perBlockNum ▸ own.indexed
    · rw [Machine.segment, own.segments j same]
      exact indexes.inOrder j (migration ▸ alone)
  emptying := fun j pc running => by
    rw [migration] at running
    have other : j ≠ idx := by
      rintro rfl
      obtain ⟨task, migrating⟩ := (indexes.owner j).2 ⟨pc, running⟩
      exact before task migrating
    rw [Machine.segment, own.segments j other]
    exact indexes.emptying j pc running
  owner := fun j => by
    rw [migration, ← indexes.owner j, stations]
    by_cases same : j = idx
    · subst same
      rw [Function.update_self]
      refine iff_of_false ?_ ?_
      · rintro ⟨task, at_⟩
        exact after task at_
      · rintro ⟨task, at_⟩
        exact before task at_
    · rw [Function.update_of_ne same]
  inRange := fun j task => by
    rw [stations]
    by_cases same : j = idx
    · subst same
      rw [Function.update_self]
      rintro (full | migrating)
      · exact inRange task full
      · exact absurd migrating (after task)
    · rw [Function.update_of_ne same]
      exact indexes.inRange j task

theorem front (indexes : s.Indexes P) {turn : Turn} (step : FrontStep submitQueueNum s turn t) :
    t.Indexes P := by
  cases step with
  | post | free | skip | schedule => exact indexes.frame rfl rfl fun _ => rfl
  | toNvm hand inside =>
      refine indexes.frame rfl rfl fun j => ?_
      dsimp only [setStation]
      by_cases same : j = ⟨_, inside⟩
      · rw [same, Function.update_self]
      · rw [Function.update_of_ne same]
  | @toBuffer idx =>
      refine indexes.frame rfl rfl fun j => ?_
      dsimp only [setStation]
      by_cases same : j = idx
      · rw [same, Function.update_self]
      · rw [Function.update_of_ne same]

/-- The task taken from the buffer queue is in range. -/
theorem taken (fits : s.Fits) {task : IoTask} {station : Station}
    (takes : Takes (s.station idx) task station) (type : task.type = SSD_TASK) : InRange task := by
  have part := (fits.takes takes).1.resolve_left (by rw [type]; decide)
  exact part.inRange

/-- A deed or a poll leaves the index as it is. -/
theorem deed (indexes : s.Indexes P) (idx : SegIdx) {station : Station}
    (stations : t.station = Function.update s.station idx station)
    (migration : t.migration = s.migration) (md : t.m.md = s.m.md)
    (before : ∀ task, (s.station idx).nvm ≠ .migrating task)
    (after : ∀ task, ¬ station.nvm.Migrates task) : t.Indexes P :=
  have own : OwnSegment idx s.m.md t.m.md := by
    rw [md]
    exact .same (indexes.own before)
  indexes.worker idx stations migration own before (fun task at_ => after task (.inr at_))
    fun task at_ => absurd (.inl at_) (after task)

theorem beginMigration (indexes : s.Indexes P) {task : IoTask}
    (full : (s.station idx).nvm = .full task) (free : s.migration = none) :
    Pipeline.Indexes P
      { s.setStation idx { s.station idx with nvm := .migrating task } with
        migration := some (idx, fun t => .pop t) } where
  perBlockNum := indexes.perBlockNum
  inOrder := fun j _ => indexes.inOrder j fun pc running => by
    rw [free] at running
    cases running
  emptying := fun j pc running => by
    cases running
    refine .begin (indexes.inOrder _ fun pc running => ?_)
    rw [free] at running
    cases running
  owner := fun j => by
    dsimp only [setStation]
    by_cases same : j = idx
    · subst same
      rw [Function.update_self]
      exact iff_of_true ⟨task, rfl⟩ ⟨_, rfl⟩
    · rw [Function.update_of_ne same]
      refine iff_of_false (fun migrating => ?_) ?_
      · obtain ⟨pc, running⟩ := (indexes.owner j).1 migrating
        rw [free] at running
        cases running
      · rintro ⟨pc, running⟩
        cases running
        exact same rfl
  inRange := fun j task' => by
    dsimp only [setStation]
    by_cases same : j = idx
    · subst same
      rw [Function.update_self]
      rintro (at_ | at_)
      · cases at_
      · cases at_
        exact indexes.inRange j task (.inl full)
    · rw [Function.update_of_ne same]
      exact indexes.inRange j task'

/-- The write that goes on when all migrate threads are at their end changes its own segment. -/
theorem afterMigration (indexes : s.Indexes P) (some_block : 0 < P) {task : IoTask} {md : Metadata}
    {actions : List Action} {ret : Nat} {pc : Fin MIGRATE_THREAD_NUM → MigratePc}
    (migrating : (s.station idx).nvm = .migrating task) (running : s.migration = some (idx, pc))
    (ends : ∀ t, pc t = .done)
    (result : (redirectWriteAfterMigration (migrationEnd s.m idx).md task idx).counted =
      .done md actions ret) : OwnSegment idx s.m.md md := by
  obtain ⟨ok, empty⟩ := (indexes.emptying idx pc running).ended ends
  have size : (migrationEnd s.m idx).md.perBlockNum = P := indexes.perBlockNum
  have inRange := indexes.inRange idx task (.inr migrating)
  obtain ⟨before, written⟩ := counted_eq_done result
  have outcome := redirectWriteAfterMigration_empty (migrationEnd s.m idx).md
    (size ▸ ok) (size ▸ some_block) empty inRange
  rw [written] at outcome
  have own := outcome.ownSegment (size ▸ ok) inRange
  refine ⟨own.perBlockNum, fun j other => ?_, own.indexed⟩
  rw [own.segments j other]
  exact Metadata.setSegment_of_ne s.m.md _ other

/-- At the end of a migration the segment goes back to its worker. -/
theorem endMigration (indexes : s.Indexes P) {task : IoTask} {md : Metadata}
    {actions : List Action} {pc : Fin MIGRATE_THREAD_NUM → MigratePc}
    (running : s.migration = some (idx, pc)) (own : OwnSegment idx s.m.md md) :
    Pipeline.Indexes P
      { s.setStation idx { s.station idx with nvm := .doing task (actions.map .act) } with
        m := { migrationEnd s.m idx with md := md }
        migration := none } := by
  have alone : ∀ j ≠ idx, ∀ pc', s.migration ≠ some (j, pc') := by
    rintro j other pc' there
    rw [running] at there
    cases there
    exact other rfl
  refine ⟨own.perBlockNum.trans indexes.perBlockNum, fun j _ => ?_, nofun, fun j => ?_,
    fun j task' => ?_⟩
  · by_cases same : j = idx
    · subst same
      exact indexes.perBlockNum ▸ own.indexed
    · show Indexed P (md.segments j)
      rw [own.segments j same]
      exact indexes.inOrder j (alone j same)
  · refine iff_of_false ?_ fun ⟨_, there⟩ => nomatch there
    dsimp only [setStation]
    by_cases same : j = idx
    · rw [same, Function.update_self]
      exact fun ⟨_, at_⟩ => nomatch at_
    · rw [Function.update_of_ne same]
      intro at_
      obtain ⟨pc', there⟩ := (indexes.owner j).1 at_
      exact alone j same pc' there
  · dsimp only [setStation]
    by_cases same : j = idx
    · rw [same, Function.update_self]
      rintro (at_ | at_) <;> cases at_
    · rw [Function.update_of_ne same]
      exact indexes.inRange j task'

/-- A worker that leaves `migrate_mutex` has waited for all threads. -/
theorem waited (indexes : s.Indexes P) {capacity : Nat} {task : IoTask}
    (migrating : (s.station idx).nvm = .migrating task)
    (stepped : s.nvmStep capacity idx = some t) :
    ∃ pc, s.migration = some (idx, pc) ∧ ∀ thread, pc thread = .done := by
  obtain ⟨mine, running⟩ := (indexes.owner idx).1 ⟨task, migrating⟩
  refine ⟨mine, running, ?_⟩
  unfold nvmStep at stepped
  rw [migrating] at stepped
  dsimp only at stepped
  rw [Pipeline.endMigration, running, Option.bind_some] at stepped
  dsimp only at stepped
  split at stepped
  next ends => exact ends
  next => cases stepped

theorem nvm (indexes : s.Indexes P) (fits : s.Fits) (some_block : 0 < P) (step : NvmStep s idx t)
    (ends : ∀ task, (s.station idx).nvm = .migrating task →
      ∃ pc, s.migration = some (idx, pc) ∧ ∀ thread, pc thread = .done) : t.Indexes P := by
  have polls (at_ : (s.station idx).nvm = .poll) : ∀ task, (s.station idx).nvm ≠ .migrating task :=
    fun task => by rw [at_]; nofun
  have does {task : IoTask} {deeds : List Deed} (at_ : (s.station idx).nvm = .doing task deeds) :
      ∀ task, (s.station idx).nvm ≠ .migrating task := fun task => by rw [at_]; nofun
  have doing (task : IoTask) (deeds : List Deed) : ∀ task', ¬ (NvmPc.doing task deeds).Migrates task' :=
    fun task' at_ => by rcases at_ with at_ | at_ <;> cases at_
  cases step with
  | turn poll =>
      refine indexes.deed idx rfl rfl rfl (polls poll) fun task at_ => ?_
      dsimp only at at_
      rw [poll] at at_
      rcases at_ with at_ | at_ <;> cases at_
  | nvmTask poll => exact indexes.deed idx rfl rfl rfl (polls poll) (doing _ _)
  | noTask poll => exact indexes.deed idx rfl rfl rfl (polls poll) (doing _ _)
  | postSsd at_ => exact indexes.deed idx rfl rfl rfl (does at_) (doing _ _)
  | @act task a rest _ at_ =>
      exact indexes.deed idx rfl rfl (perform_md s.m a) (does at_) (doing task rest)
  | nvmRead at_ => exact indexes.deed idx rfl rfl rfl (does at_) (doing _ _)
  | nvmWrite at_ => exact indexes.deed idx rfl rfl rfl (does at_) (doing _ _)
  | finish at_ =>
      refine indexes.deed idx rfl rfl rfl (does at_) fun task at_ => ?_
      rcases at_ with at_ | at_ <;> cases at_
  | ssdTask poll takes type result =>
      have inRange := taken fits takes type
      exact indexes.worker idx rfl rfl
        (nvmWorkerSsdTask_ownSegment (indexes.own (polls poll)) inRange result) (polls poll) nofun
        nofun
  | full poll takes type result =>
      refine indexes.worker idx rfl rfl (.same (indexes.own (polls poll))) (polls poll) nofun ?_
      intro task same
      cases same
      exact taken fits takes type
  | beginMigration full free => exact indexes.beginMigration full free
  | @endMigration task _ _ _ migrating result =>
      obtain ⟨pc, running, all⟩ := ends task migrating
      exact indexes.endMigration running
        (indexes.afterMigration some_block migrating running all result)

theorem ssd (indexes : s.Indexes P) (step : SsdStep s idx t) : t.Indexes P := by
  have nvm (station : Station) (same : station.nvm = (s.station idx).nvm) (j : SegIdx) :
      (Function.update s.station idx station j).nvm = (s.station j).nvm := by
    by_cases here : j = idx
    · rw [here, Function.update_self, same]
    · rw [Function.update_of_ne here]
  cases step with
  | take => exact indexes.frame rfl rfl (nvm _ rfl)
  | stage => exact indexes.frame (ssdTaskStage_md ..) rfl (nvm _ rfl)
  | move => exact indexes.frame (ssdTaskMove_md ..) rfl (nvm _ rfl)
  | count => exact indexes.frame (ssdTaskCount_md ..) rfl (nvm _ rfl)

theorem migrate (indexes : s.Indexes P) {pc : Fin MIGRATE_THREAD_NUM → MigratePc}
    {next : MigrateState MIGRATE_THREAD_NUM} {thread : Fin MIGRATE_THREAD_NUM}
    (running : s.migration = some (idx, pc))
    (moved : Mixdk.migrateStep idx { m := s.m, pc := pc } thread = some next) :
    Pipeline.Indexes P { s with m := next.m, migration := some (idx, next.pc) } := by
  obtain ⟨p', move, -⟩ := migrateStep_eq_some moved
  obtain ⟨size, others⟩ := move.others
  refine ⟨size.trans indexes.perBlockNum, fun j alone => ?_, fun j pc' there => ?_, fun j => ?_,
    indexes.inRange⟩
  · have other : j ≠ idx := by
      rintro rfl
      exact alone next.pc rfl
    show Indexed P (next.m.segment j)
    rw [others j other]
    refine indexes.inOrder j fun pc' there => other ?_
    rw [running] at there
    cases there
    rfl
  · cases there
    exact (indexes.emptying idx pc running).step moved
  · rw [indexes.owner j, running]
    constructor
    · rintro ⟨pc', there⟩
      cases there
      exact ⟨_, rfl⟩
    · rintro ⟨pc', there⟩
      cases there
      exact ⟨_, rfl⟩

/-- **Every step of every thread keeps the index in order.** -/
theorem step (indexes : s.Indexes P) (fits : s.Fits) (some_block : 0 < P) {capacity : Nat}
    {turn : Turn} (stepped : s.step submitQueueNum capacity turn = some t) : t.Indexes P := by
  cases step_cases stepped with
  | front step => exact indexes.front step
  | nvm idx is step =>
      subst is
      exact indexes.nvm fits some_block step fun task at_ => indexes.waited at_ stepped
  | ssd idx _ step => exact indexes.ssd step
  | migrate thread _ running moved result =>
      subst result
      exact indexes.migrate running moved

theorem start {m : Machine} (region : Nat → Block) (requests : Nat → List Request)
    (all : AllIndexed m.md) : (Pipeline.start m region requests).Indexes m.md.perBlockNum where
  perBlockNum := rfl
  inOrder := fun idx _ => all idx
  emptying := nofun
  owner := fun _ => iff_of_false (fun ⟨_, at_⟩ => nomatch at_) fun ⟨_, there⟩ => nomatch there
  inRange := fun _ _ at_ => by rcases at_ with at_ | at_ <;> cases at_

end Pipeline.Indexes

/-! ## Runs -/

/-- Turn `turn` is of the thread that owns segment `idx`: its worker, when no migrate thread is on
its way through the segment, or a migrate thread that is. -/
def Pipeline.Owns (s : Pipeline) (turn : Pipeline.Turn) (idx : SegIdx) : Prop :=
  (turn = .nvm idx ∧ ∀ pc, s.migration = some (idx, pc) → ∀ t, pc t = .done) ∨
    ∃ t pc, turn = .migrate t ∧ s.migration = some (idx, pc)

/-- What the index of a state is like, and who may change it. -/
structure Pipeline.IndexSafe (submitQueueNum capacity P : Nat) (s : Pipeline) : Prop where
  /-- A segment that is not under migration is in order. -/
  inOrder : ∀ idx, (∀ pc, s.migration ≠ some (idx, pc)) → Indexed P (s.m.segment idx)
  /-- One that is, will be in order and empty when the threads are done. -/
  emptied : ∀ idx pc, s.migration = some (idx, pc) → (∀ t, pc t = .done) →
    Indexed P ((migrationEnd s.m idx).segment idx) ∧
      ((migrationEnd s.m idx).segment idx).hash.entries = []
  /-- One worker at a time waits for a migration. -/
  one : ∀ i j task task', (s.station i).nvm = .migrating task →
    (s.station j).nvm = .migrating task' → i = j
  /-- Nobody else changes a segment. -/
  owned : ∀ turn t, s.step submitQueueNum capacity turn = some t → ∀ idx,
    t.m.segment idx ≠ s.m.segment idx → s.Owns turn idx

namespace Pipeline.Indexes

variable {P submitQueueNum : Nat} {s t : Pipeline} {idx : SegIdx}

theorem nvm_owns (indexes : s.Indexes P) (fits : s.Fits) (some_block : 0 < P)
    (step : NvmStep s idx t)
    (ends : ∀ task, (s.station idx).nvm = .migrating task →
      ∃ pc, s.migration = some (idx, pc) ∧ ∀ thread, pc thread = .done) {j : SegIdx}
    (changed : t.m.segment j ≠ s.m.segment j) : s.Owns (.nvm idx) j := by
  have mine {md : Metadata} (own : OwnSegment idx s.m.md md)
      (changed : md.segments j ≠ s.m.segment j) : j = idx := by
    by_contra apart
    exact changed (own.segments j apart)
  cases step with
  | turn | nvmTask | noTask | postSsd | nvmRead | nvmWrite | finish | full | beginMigration =>
      exact absurd rfl changed
  | act =>
      refine absurd ?_ changed
      rw [Machine.segment, perform_md, Machine.segment]
  | ssdTask poll takes type result =>
      have working : ∀ task, (s.station idx).nvm ≠ .migrating task := by
        intro task at_
        rw [poll] at at_
        cases at_
      obtain rfl := mine (nvmWorkerSsdTask_ownSegment (indexes.own working) (taken fits takes type)
        result) changed
      refine .inl ⟨rfl, fun pc running => ?_⟩
      obtain ⟨task, migrating⟩ := (indexes.owner j).2 ⟨pc, running⟩
      exact absurd migrating (working task)
  | @endMigration task _ _ _ migrating result =>
      obtain ⟨pc, running, all⟩ := ends task migrating
      obtain rfl := mine (indexes.afterMigration some_block migrating running all result) changed
      refine .inl ⟨rfl, fun pc' there => ?_⟩
      rw [running] at there
      cases there
      exact all

theorem step_owns (indexes : s.Indexes P) (fits : s.Fits) (some_block : 0 < P) {capacity : Nat}
    {turn : Turn} (stepped : s.step submitQueueNum capacity turn = some t)
    (changed : t.m.segment idx ≠ s.m.segment idx) : s.Owns turn idx := by
  cases step_cases stepped with
  | front step =>
      have same : t.m = s.m := by cases step <;> rfl
      rw [same] at changed
      exact absurd rfl changed
  | nvm i is step =>
      subst is
      exact indexes.nvm_owns fits some_block step (fun task at_ => indexes.waited at_ stepped)
        changed
  | ssd i _ step =>
      have same : t.m.md = s.m.md := by
        cases step with
        | take => rfl
        | stage => exact ssdTaskStage_md ..
        | move => exact ssdTaskMove_md ..
        | count => exact ssdTaskCount_md ..
      rw [Machine.segment, same] at changed
      exact absurd rfl changed
  | @migrate i pc next thread is running moved result =>
      subst result
      obtain ⟨p', move, -⟩ := migrateStep_eq_some moved
      have here : idx = i := by
        by_contra other
        exact changed (move.others.2 idx other)
      exact .inr ⟨thread, pc, is, here ▸ running⟩

theorem safe (indexes : s.Indexes P) (fits : s.Fits) (some_block : 0 < P) (capacity : Nat) :
    s.IndexSafe submitQueueNum capacity P where
  inOrder := indexes.inOrder
  emptied := fun idx pc running => (indexes.emptying idx pc running).ended
  one := fun i j task task' first second => by
    obtain ⟨pc, running⟩ := (indexes.owner i).1 ⟨task, first⟩
    obtain ⟨pc', running'⟩ := (indexes.owner j).1 ⟨task', second⟩
    rw [running] at running'
    cases running'
    rfl
  owned := fun _ _ stepped _ => indexes.step_owns fits some_block stepped

theorem exec {capacity : Nat} {m : Machine} {region : Nat → Block} {requests : Nat → List Request}
    (all : AllIndexed m.md) (some_block : 0 < m.md.perBlockNum)
    (inside : ∀ i, ∀ request ∈ requests i, request.Inside) {turns : List Turn}
    (ran : Transition.exec (Pipeline.step submitQueueNum capacity) (.start m region requests) turns =
      some s) : s.Fits ∧ s.Indexes m.md.perBlockNum :=
  exec_invariant (I := fun s => s.Fits ∧ s.Indexes m.md.perBlockNum)
    (fun _ _ _ ⟨fits, indexes⟩ stepped =>
      ⟨fits.step (step_cases stepped), indexes.step fits some_block stepped⟩)
    ran ⟨start_fits m region inside, .start region requests all⟩

end Pipeline.Indexes

end Mixdk
